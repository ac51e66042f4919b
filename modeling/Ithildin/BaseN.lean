import Ithildin.CString
import Ithildin.Lib.Bits
import Mathlib.Data.List.Induction

/-!
# Encoding in base N

* `Encoding`: the supported bases; `base_dmap`, `base64_dmap`: the tables for decoding, as they
  stand;
* `strBaseEncode`, `strBaseDecode`: `str_base_encode` and `str_base_decode`;
* `strBaseDecode_encode`: what comes back of a stream of bytes;
* `roundTrip_iff`: it is the stream exactly if no bits are padded.
-/

namespace Ithildin

/-- The types of encoding, by the bits of a digit. -/
inductive Encoding
  | base2
  | base4
  | base8
  | base16
  | base32
  | base64
  deriving DecidableEq

/-- `BASE2_ENCODING` and so on. -/
def Encoding.type : Encoding → ℕ
  | .base2 => 1
  | .base4 => 2
  | .base8 => 3
  | .base16 => 4
  | .base32 => 5
  | .base64 => 6

def base_emap : Bytes := bytes "0123456789abcdefghijklmnopqrstuv"

def base64_emap : Bytes := bytes "ABCDEFGHIJKLMNOPQRSTUVWXYZabcdefghijklmnopqrstuvwxyz0123456789+/"

/-- A comma is missing, so that the second half of the table is one entry short. -/
def base_dmap : List ℤ := [
  -1, -1, -1, -1, -1, -1, -1, -1, -1, -1,
  -1, -1, -1, -1, -1, -1, -1, -1, -1, -1,
  -1, -1, -1, -1, -1, -1, -1, -1, -1, -1,
  -1, -1, -1, -1, -1, -1, -1, -1, -1, -1,
  -1, -1, -1, -1, -1, -1, -1, -1, 0, 1,
  2, 3, 4, 5, 6, 7, 8, 9, -1, -1,
  -1, -1, -1, -1, -1, 10, 11, 12, 13, 14,
  15, 16, 17, 18, 19, 20, 21, 22, 23, 24,
  25, 26, 27, 28, 29, 30, 31, -1, -1, -1,
  -1, -1, -1, -1, -1, -1, -1, 10, 11, 12,
  13, 14, 15, 16, 17, 18, 19, 20, 21, 22,
  23, 24, 25, 26, 27, 28, 29, 30, 31, -1
    - 1, -1, -1, -1, -1, -1, -1, -1, -1, -1,
  -1, -1, -1, -1, -1, -1, -1, -1, -1, -1,
  -1, -1, -1, -1, -1, -1, -1, -1, -1, -1,
  -1, -1, -1, -1, -1, -1, -1, -1, -1, -1,
  -1, -1, -1, -1, -1, -1, -1, -1, -1, -1,
  -1, -1, -1, -1, -1, -1, -1, -1, -1, -1,
  -1, -1, -1, -1, -1, -1, -1, -1, -1, -1,
  -1, -1, -1, -1, -1, -1, -1, -1, -1, -1,
  -1, -1, -1, -1, -1, -1, -1, -1, -1, -1,
  -1, -1, -1, -1, -1, -1, -1, -1, -1, -1,
  -1, -1, -1, -1, -1, -1, -1, -1, -1, -1,
  -1, -1, -1, -1, -1, -1, -1, -1, -1, -1,
  -1, -1, -1, -1, -1, -1, -1, -1, -1, -1,
  -1, -1, -1, -1, -1, -1]

/-- So is one here. -/
def base64_dmap : List ℤ := [
  -1, -1, -1, -1, -1, -1, -1, -1, -1, -2,
  -2, -2, -2, -2, -1, -1, -1, -1, -1, -1,
  -1, -1, -1, -1, -1, -1, -1, -1, -1, -1,
  -1, -1, -2, -1, -1, -1, -1, -1, -1, -1,
  -1, -1, -1, 62, -1, -1, -1, 63, 52, 53,
  54, 55, 56, 57, 58, 59, 60, 61, -1, -1,
  -1, -2, -1, -1, -1, 0, 1, 2, 3, 4,
  5, 6, 7, 8, 9, 10, 11, 12, 13, 14,
  15, 16, 17, 18, 19, 20, 21, 22, 23, 24,
  25, -1, -1, -1, -1, -1, -1, 26, 27, 28,
  29, 30, 31, 32, 33, 34, 35, 36, 37, 38,
  39, 40, 41, 42, 43, 44, 45, 46, 47, 48,
  49, 50, 51, -1, -1, -1, -1, -1, -1, -1
    - 1, -1, -1, -1, -1, -1, -1, -1, -1, -1,
  -1, -1, -1, -1, -1, -1, -1, -1, -1, -1,
  -1, -1, -1, -1, -1, -1, -1, -1, -1, -1,
  -1, -1, -1, -1, -1, -1, -1, -1, -1, -1,
  -1, -1, -1, -1, -1, -1, -1, -1, -1, -1,
  -1, -1, -1, -1, -1, -1, -1, -1, -1, -1,
  -1, -1, -1, -1, -1, -1, -1, -1, -1, -1,
  -1, -1, -1, -1, -1, -1, -1, -1, -1, -1,
  -1, -1, -1, -1, -1, -1, -1, -1, -1, -1,
  -1, -1, -1, -1, -1, -1, -1, -1, -1, -1,
  -1, -1, -1, -1, -1, -1, -1, -1, -1, -1,
  -1, -1, -1, -1, -1, -1, -1, -1, -1, -1,
  -1, -1, -1, -1, -1, -1]

namespace Encoding

variable (e : Encoding)

def emap : Bytes := if e = base64 then base64_emap else base_emap

def dmap : List ℤ := if e = base64 then base64_dmap else base_dmap

/-- The digit for some bits. -/
def digit (i : ℕ) : UInt8 := e.emap.getD i 0

/-- `map[(unsigned char)*src]`. -/
def entry (c : UInt8) : ℤ := e.dmap.getD c.toNat 0

end Encoding

/-- The bits that wait to be written, in an `unsigned int`, and what is written. -/
structure BaseState where
  chunk : ℕ
  bits : ℕ
  dest : Bytes
  deriving DecidableEq

/-- `while (bits >= type)`, which goes around at most `n` times. -/
def writeDigits (e : Encoding) : ℕ → BaseState → BaseState
  | 0, st => st
  | n + 1, st =>
      if st.bits < e.type then st
      else
        let bits := st.bits - e.type
        writeDigits e n
          { chunk := st.chunk &&& (255 >>> (8 - bits))
            bits := bits
            dest := st.dest ++ [e.digit (st.chunk >>> bits)] }

/-- One byte of the stream. -/
def encodeByte (e : Encoding) (st : BaseState) (c : UInt8) : BaseState :=
  let chunk := ((st.chunk <<< 8) % 4294967296 + c.toNat) % 4294967296
  writeDigits e (st.bits + 8) { st with chunk := chunk, bits := st.bits + 8 }

/-- `str_base_encode`: what it writes in front of the NUL, and the length it returns. Behind the
inner loop there are always fewer than `type` bits left, so that each round takes a byte. -/
def strBaseEncode (e : Encoding) (src : Bytes) : Bytes × ℕ :=
  let st := src.foldl (encodeByte e) ⟨0, 0, []⟩
  let dest :=
    if 0 < st.bits then
      st.dest ++ [e.digit ((st.chunk <<< (e.type - st.bits)) % 4294967296)]
    else st.dest
  (dest, dest.length)

/-- One byte of the encoded stream; bytes that are no digits are left out. -/
def decodeByte (e : Encoding) (st : BaseState) (c : UInt8) : BaseState :=
  let v := e.entry c
  if v < 0 ∨ 2 ^ e.type ≤ v then st
  else
    let chunk := ((st.chunk <<< e.type) % 4294967296 + v.toNat) % 4294967296
    let bits := st.bits + e.type
    if 8 ≤ bits then
      { chunk := chunk ^^^ (255 <<< (bits - 8))
        bits := bits - 8
        dest := st.dest ++ [(chunk >>> (bits - 8)).toUInt8] }
    else { chunk := chunk, bits := bits, dest := st.dest }

/-- `str_base_decode`: what it writes and the length it returns, without `errno`. -/
def strBaseDecode (e : Encoding) (src : Bytes) : Bytes × ℕ :=
  let st := src.foldl (decodeByte e) ⟨0, 0, []⟩
  let dest := if st.bits ≠ 0 then st.dest ++ [st.chunk.toUInt8] else st.dest
  (dest, dest.length)

namespace Encoding

variable (e : Encoding)

theorem type_pos : 1 ≤ e.type := by cases e <;> decide

theorem type_le : e.type ≤ 6 := by cases e <;> decide

/-- A digit is read as the bits that it was written for. -/
theorem entry_digit {i : ℕ} (h : i < 2 ^ e.type) : e.entry (e.digit i) = i := by
  have hall : ∀ e : Encoding, ∀ i < 2 ^ e.type, e.entry (e.digit i) = i := by
    intro e
    cases e <;> decide +kernel
  exact hall e i h

end Encoding

variable {e : Encoding}

/-! ### Encoding -/

/-- `out` is the digits of `units`, and these and the bits that wait are all bits that came in. -/
structure Encodes (e : Encoding) (l : List Bool) (units : List ℕ) (st : BaseState) : Prop where
  dest : st.dest = units.map e.digit
  units_lt : ∀ i ∈ units, i < 2 ^ e.type
  chunk_lt : st.chunk < 2 ^ st.bits
  split : units.flatMap (Bits.ofNat e.type) ++ Bits.ofNat st.bits st.chunk = l

theorem and_ones_eq_mod {v b : ℕ} (h : b ≤ 8) : v &&& (255 >>> (8 - b)) = v % 2 ^ b := by
  have hones : ∀ b ≤ 8, 255 >>> (8 - b) = 2 ^ b - 1 := by decide
  rw [hones b h, Nat.and_two_pow_sub_one_eq_mod]

/-- One digit is written. -/
theorem Encodes.digit {l : List Bool} {units : List ℕ} {st : BaseState} (h : Encodes e l units st)
    (hbits : e.type ≤ st.bits) (hle : st.bits - e.type ≤ 8) :
    Encodes e l (units ++ [st.chunk >>> (st.bits - e.type)])
      { chunk := st.chunk &&& (255 >>> (8 - (st.bits - e.type)))
        bits := st.bits - e.type
        dest := st.dest ++ [e.digit (st.chunk >>> (st.bits - e.type))] } := by
  have hsum : e.type + (st.bits - e.type) = st.bits := by omega
  have hunit : st.chunk >>> (st.bits - e.type) < 2 ^ e.type := by
    rw [Nat.shiftRight_eq_div_pow, Nat.div_lt_iff_lt_mul (Nat.two_pow_pos _), ← Nat.pow_add, hsum]
    exact h.chunk_lt
  have hsplit := Bits.ofNat_add e.type (st.bits - e.type) st.chunk
  rw [hsum] at hsplit
  refine ⟨?_, ?_, ?_, ?_⟩
  · simp [h.dest]
  · intro i hi
    rcases List.mem_append.1 hi with hi | hi
    · exact h.units_lt i hi
    · rw [List.mem_singleton.1 hi]
      exact hunit
  · rw [and_ones_eq_mod hle]
    exact Nat.mod_lt _ (Nat.two_pow_pos _)
  · rw [and_ones_eq_mod hle, Bits.ofNat_mod le_rfl, List.flatMap_append, List.flatMap_singleton,
      List.append_assoc, ← hsplit]
    exact h.split

theorem Encodes.writeDigits {l : List Bool} {units : List ℕ} {st : BaseState} {n : ℕ}
    (h : Encodes e l units st) (hn : st.bits ≤ n) (hle : st.bits ≤ e.type + 8) :
    ∃ units', Encodes e l units' (writeDigits e n st) ∧ (writeDigits e n st).bits < e.type := by
  have hpos := e.type_pos
  induction n generalizing units st with
  | zero => exact ⟨units, h, by rw [Ithildin.writeDigits]; omega⟩
  | succ n ih =>
    unfold Ithildin.writeDigits
    split
    · rename_i hbits
      exact ⟨units, h, hbits⟩
    · rename_i hbits
      exact ih (h.digit (by omega) (by omega)) (by simp only; omega) (by simp only; omega)

theorem Encodes.byte {l : List Bool} {units : List ℕ} {st : BaseState} (h : Encodes e l units st)
    (hbits : st.bits < e.type) (c : UInt8) :
    ∃ units', Encodes e (l ++ Bits.ofNat 8 c.toNat) units' (encodeByte e st c) ∧
      (encodeByte e st c).bits < e.type := by
  have htype := e.type_le
  have hc := c.toNat_lt
  have hchunk : st.chunk < 2 ^ 6 :=
    h.chunk_lt.trans_le (Nat.pow_le_pow_right (by decide) (by omega))
  have hword : ((st.chunk <<< 8) % 4294967296 + c.toNat) % 4294967296 =
      st.chunk * 2 ^ 8 + c.toNat := by
    rw [Nat.shiftLeft_eq]
    omega
  refine @Encodes.writeDigits _ _ units _ _ ⟨h.dest, h.units_lt, ?_, ?_⟩ le_rfl ?_
  · dsimp only
    rw [hword, Nat.pow_add]
    have hlt := h.chunk_lt
    have hmul : st.chunk * 2 ^ 8 + 2 ^ 8 ≤ 2 ^ st.bits * 2 ^ 8 := by
      rw [← Nat.succ_mul]
      exact Nat.mul_le_mul_right _ hlt
    omega
  · dsimp only
    rw [hword, Bits.ofNat_append hc, ← List.append_assoc, h.split]
  · dsimp only
    omega

theorem encodes_foldl (src : Bytes) :
    ∃ units, Encodes e (Bits.ofBytes src) units (src.foldl (encodeByte e) ⟨0, 0, []⟩) ∧
      (src.foldl (encodeByte e) ⟨0, 0, []⟩).bits < e.type := by
  induction src using List.reverseRecOn with
  | nil => exact ⟨[], ⟨rfl, by simp, by simp, rfl⟩, e.type_pos⟩
  | append_singleton src c ih =>
    obtain ⟨units, h, hbits⟩ := ih
    rw [List.foldl_append, Bits.ofBytes_append]
    exact h.byte hbits c

/-- The digits hold the bits of the stream, with zeros behind the last one. -/
theorem exists_units (e : Encoding) (src : Bytes) :
    ∃ (units : List ℕ) (pad : ℕ), (strBaseEncode e src).1 = units.map e.digit ∧
      (∀ i ∈ units, i < 2 ^ e.type) ∧
      units.flatMap (Bits.ofNat e.type) = Bits.ofBytes src ++ List.replicate pad false ∧
      pad < e.type ∧ (pad = 0 ↔ e.type ∣ 8 * src.length) := by
  obtain ⟨units, h, hbits⟩ := encodes_foldl (e := e) src
  have hpos := e.type_pos
  generalize hst : src.foldl (encodeByte e) ⟨0, 0, []⟩ = st at h hbits
  have hlength := congrArg List.length h.split
  rw [List.length_append, Bits.length_flatMap_ofNat, Bits.length_ofNat,
    Bits.length_ofBytes] at hlength
  have hmod : (8 * src.length) % e.type = st.bits := by
    rw [← hlength, Nat.mul_add_mod, Nat.mod_eq_of_lt hbits]
  unfold strBaseEncode
  rw [hst]
  dsimp only
  by_cases hleft : 0 < st.bits
  · -- the bits that wait are the front of a last digit
    have htype := e.type_le
    have hsum : st.bits + (e.type - st.bits) = e.type := by omega
    have hlast : st.chunk <<< (e.type - st.bits) < 2 ^ e.type := by
      have hmul := Nat.mul_lt_mul_of_pos_right h.chunk_lt
        (Nat.two_pow_pos (e.type - st.bits))
      rwa [← Nat.pow_add, hsum, ← Nat.shiftLeft_eq] at hmul
    have hword : (st.chunk <<< (e.type - st.bits)) % 4294967296 =
        st.chunk <<< (e.type - st.bits) := by
      refine Nat.mod_eq_of_lt (hlast.trans_le ?_)
      exact (Nat.pow_le_pow_right (by decide) htype).trans (by decide)
    have hsplit : Bits.ofNat e.type (st.chunk <<< (e.type - st.bits)) =
        Bits.ofNat st.bits st.chunk ++ List.replicate (e.type - st.bits) false := by
      have happend := Bits.ofNat_append (n := st.bits) (v := st.chunk)
        (Nat.two_pow_pos (e.type - st.bits))
      rwa [hsum, Nat.add_zero, Bits.ofNat_zero, ← Nat.shiftLeft_eq] at happend
    refine ⟨units ++ [st.chunk <<< (e.type - st.bits)], e.type - st.bits, ?_, ?_, ?_, ?_, ?_⟩
    · rw [if_pos hleft, hword, h.dest]
      simp
    · intro i hi
      rcases List.mem_append.1 hi with hi | hi
      · exact h.units_lt i hi
      · rw [List.mem_singleton.1 hi]
        exact hlast
    · rw [List.flatMap_append, List.flatMap_singleton, hsplit, ← List.append_assoc, h.split]
    · omega
    · rw [Nat.dvd_iff_mod_eq_zero, hmod]
      omega
  · obtain hzero : st.bits = 0 := by omega
    have hsplit := h.split
    rw [hzero, Bits.ofNat, List.append_nil] at hsplit
    refine ⟨units, 0, ?_, h.units_lt, ?_, hpos, ?_⟩
    · rw [if_neg hleft, h.dest]
    · rw [hsplit, List.replicate_zero, List.append_nil]
    · rw [Nat.dvd_iff_mod_eq_zero, hmod]
      omega

/-! ### Decoding -/

/-- The bytes that are written and the bits that wait are all bits that came in. -/
structure Decodes (l : List Bool) (st : BaseState) : Prop where
  bits_lt : st.bits < 8
  split : Bits.ofBytes st.dest ++ Bits.ofNat st.bits st.chunk = l

theorem Decodes.digit {l : List Bool} {st : BaseState} (h : Decodes l st) {i : ℕ}
    (hi : i < 2 ^ e.type) :
    Decodes (l ++ Bits.ofNat e.type i) (decodeByte e st (e.digit i)) := by
  have htype := e.type_le
  have hbits := h.bits_lt
  have hword : Bits.ofNat (st.bits + e.type)
      (((st.chunk <<< e.type) % 4294967296 + i) % 4294967296) =
      Bits.ofNat st.bits st.chunk ++ Bits.ofNat e.type i := by
    have hmod : ((st.chunk <<< e.type) % 4294967296 + i) % 4294967296 =
        (st.chunk * 2 ^ e.type + i) % 2 ^ 32 := by
      rw [Nat.shiftLeft_eq]
      omega
    rw [hmod, Bits.ofNat_mod (by omega), Bits.ofNat_append hi]
  have hentry : ¬ ((i : ℤ) < 0 ∨ 2 ^ e.type ≤ (i : ℤ)) := by
    rw [not_or]
    refine ⟨by omega, ?_⟩
    have hcast : ((2 ^ e.type : ℕ) : ℤ) = 2 ^ e.type := by simp
    omega
  unfold decodeByte
  rw [e.entry_digit hi]
  dsimp only
  rw [if_neg hentry, Int.toNat_natCast]
  generalize ((st.chunk <<< e.type) % 4294967296 + i) % 4294967296 = chunk at hword
  rw [← h.split, List.append_assoc, ← hword]
  by_cases hfull : 8 ≤ st.bits + e.type
  · rw [if_pos hfull]
    refine ⟨by dsimp only; omega, ?_⟩
    dsimp only
    have hsum : st.bits + e.type = 8 + (st.bits + e.type - 8) := by omega
    -- the bits that are inverted lie in front of those that wait
    have hrest : Bits.ofNat (st.bits + e.type - 8)
        (chunk ^^^ (255 <<< (st.bits + e.type - 8))) =
        Bits.ofNat (st.bits + e.type - 8) chunk := by
      rw [Bits.ofNat_eq_iff]
      intro j hj
      rw [Nat.testBit_xor, Nat.testBit_shiftLeft]
      simp [show ¬ st.bits + e.type - 8 ≤ j by omega]
    have hbyte : Bits.ofNat 8 (chunk >>> (st.bits + e.type - 8)).toUInt8.toNat =
        Bits.ofNat 8 (chunk >>> (st.bits + e.type - 8)) := by
      rw [Nat.toUInt8_eq, UInt8.toNat_ofNat']
      exact Bits.ofNat_mod le_rfl
    have hsplit := Bits.ofNat_add 8 (st.bits + e.type - 8) chunk
    rw [← hsum] at hsplit
    rw [hrest, Bits.ofBytes_append, Bits.ofBytes_cons, Bits.ofBytes_nil, List.append_nil, hbyte,
      List.append_assoc, hsplit]
  · rw [if_neg hfull]
    exact ⟨by dsimp only; omega, rfl⟩

theorem decodes_foldl {units : List ℕ} (h : ∀ i ∈ units, i < 2 ^ e.type) :
    Decodes (units.flatMap (Bits.ofNat e.type))
      ((units.map e.digit).foldl (decodeByte e) ⟨0, 0, []⟩) := by
  induction units using List.reverseRecOn with
  | nil => exact ⟨Nat.zero_lt_succ 7, rfl⟩
  | append_singleton units i ih =>
    rw [List.map_append, List.foldl_append, List.flatMap_append, List.flatMap_singleton]
    refine (ih fun j hj => h j (by simp [hj])).digit (h i (by simp))

/-- The stream comes back, with a byte behind it if bits were padded. -/
theorem strBaseDecode_encode (e : Encoding) (src : Bytes) :
    ∃ junk : Bytes, strBaseDecode e (strBaseEncode e src).1 =
      (src ++ junk, src.length + junk.length) ∧
        (junk = [] ↔ e.type ∣ 8 * src.length) := by
  obtain ⟨units, pad, hencode, hunits, hbits, hpad, hzero⟩ := exists_units e src
  have htype := e.type_le
  have h := decodes_foldl hunits
  rw [hbits] at h
  unfold strBaseDecode
  rw [hencode]
  generalize (units.map e.digit).foldl (decodeByte e) ⟨0, 0, []⟩ = st at h
  have hsplit := h.split
  have hlt := h.bits_lt
  have hlength := congrArg List.length hsplit
  simp only [List.length_append, Bits.length_ofBytes, Bits.length_ofNat,
    List.length_replicate] at hlength
  obtain ⟨hdest, -⟩ := List.append_inj hsplit (by
    rw [Bits.length_ofBytes, Bits.length_ofBytes]
    omega)
  have hdest := Bits.ofBytes_injective hdest
  have hwaiting : st.bits = pad := by
    rw [hdest] at hlength
    omega
  dsimp only
  by_cases hbits : st.bits = 0
  · refine ⟨[], ?_, iff_of_true rfl (hzero.1 (by omega))⟩
    rw [if_neg (by simpa using hbits), hdest]
    simp
  · refine ⟨[st.chunk.toUInt8], ?_, iff_of_false (by simp) fun hdvd => hbits ?_⟩
    · rw [if_pos hbits, hdest]
      simp
    · rw [hwaiting]
      exact hzero.2 hdvd

/-- A stream comes back as it was exactly if its bits fill the digits. -/
theorem roundTrip_iff (e : Encoding) (src : Bytes) :
    strBaseDecode e (strBaseEncode e src).1 = (src, src.length) ↔ e.type ∣ 8 * src.length := by
  obtain ⟨junk, hdecode, hjunk⟩ := strBaseDecode_encode e src
  rw [hdecode, ← hjunk]
  constructor
  · intro h
    simpa using congrArg Prod.fst h
  · rintro rfl
    simp

/-- Of one byte in base 64, four bits are padded. -/
theorem roundTrip_fails :
    ¬ ∀ (e : Encoding) (src : Bytes),
      strBaseDecode e (strBaseEncode e src).1 = (src, src.length) := by
  intro h
  have hbyte := h .base64 [65]
  revert hbyte
  decide +kernel

end Ithildin
