import Ithildin.Table.HashTable
import Mathlib.Logic.Function.Iterate
import Mathlib.Tactic.Common

/-!
# What the hash of a key depends on

* `Reads`: the bytes that `hash_get_key_hash` reads, by the length it takes the key to have;
* `KeyHashSound`: keys that are equal hash alike, only bytes of the key count, and of a binary key
  every one does;
* `SoundConf`: the tables for which that is so;
* `keyHash_sound`: it is so for them, and for no others up to a length of 1200.

Each round takes twelve bytes, but leaves out the fifth of them and reads the one behind them.
-/

namespace Ithildin

namespace TableConf

variable (conf : TableConf)

/-- `hash_get_key_hash`, with the mask at its end. -/
def keyBucket (size : UInt32) (key : Memory) : UInt32 := conf.keyHash key &&& (size - 1)

/-- The byte is one of the key, or ends it: within the length, and not behind the terminator. -/
def Within (key : Memory) (i : ℕ) : Prop :=
  i < conf.keylen ∧ (conf.string = true → ∀ j < i, key j ≠ 0)

/-- What a comparison of up to `keylen` bytes finds equal: it ignores the case of strings. -/
def Same (key key' : Memory) : Prop :=
  ∀ i, conf.Within key i →
    if conf.string then toLower (key i) = toLower (key' i) else key i = key' i

/-- The comparison of the table, `strcasecmp` or `strncasecmp` for strings and `memcmp` otherwise:
it looks at the bytes of the key, and strings that differ in case only are equal. -/
structure Compares : Prop where
  same : ∀ key key', conf.cmp key key' conf.keylen = 0 → conf.Same key key'
  folds : conf.string = true → ∀ key key', (∀ i, toLower (key i) = toLower (key' i)) →
    conf.cmp key key' conf.keylen = 0

/-- The sizes that tables have: they start with 64 buckets at least, and are doubled. -/
def TableSize (size : UInt32) : Prop := ∃ k, 6 ≤ k ∧ k < 32 ∧ size = UInt32.ofNat (2 ^ k)

/-- Equal keys hash alike, and what is hashed is the key. -/
structure KeyHashSound (size : UInt32) : Prop where
  alike : ∀ key key', conf.cmp key key' conf.keylen = 0 →
    conf.keyBucket size key = conf.keyBucket size key'
  within : ∀ key key', (∀ i, conf.Within key i → key i = key' i) →
    conf.keyBucket size key = conf.keyBucket size key'
  every : conf.string = false → ∀ i < conf.keylen, ∃ key key', (∀ j, j ≠ i → key j = key' j) ∧
    conf.keyBucket size key ≠ conf.keyBucket size key'

/-- Strings that a key of full length fills with whole rounds: the byte behind it is read. -/
def ReadsPast : Prop := 12 ∣ conf.keylen ∧ conf.keylen < 2 ^ 32

/-- Strings are hashed without regard to case, and no key is filled with whole rounds; a binary key
is shorter than a round. -/
def SoundConf : Prop :=
  conf.keylen = 0 ∨
    if conf.string then conf.nocase = true ∧ ¬ conf.ReadsPast else conf.keylen < 12

/-! ### The bytes that are read -/

/-- The bytes that count for a key of a length. -/
def Reads (len i : ℕ) : Prop :=
  (i < len ∨ 0 < len ∧ 12 ∣ len ∧ i = len) ∧ ¬ (i % 12 = 4 ∧ i < len / 12 * 12)

theorem rounds_congr {n : ℕ} {key key' : ℕ → UInt32} {m : Mixed}
    (h : ∀ i, 0 < n → i ≤ 12 * n → ¬ (i % 12 = 4 ∧ i < 12 * n) → key i = key' i) :
    rounds n key m = rounds n key' m := by
  induction n generalizing key key' m with
  | zero => rfl
  | succ n ih =>
    have hread : ∀ i ≤ 12, i ≠ 4 → key i = key' i := by
      intro i hi h4
      exact h i (by omega) (by omega) (by omega)
    rw [rounds, rounds, hread 0 (by omega) (by omega), hread 1 (by omega) (by omega),
      hread 2 (by omega) (by omega), hread 3 (by omega) (by omega), hread 5 (by omega) (by omega),
      hread 6 (by omega) (by omega), hread 7 (by omega) (by omega), hread 8 (by omega) (by omega),
      hread 9 (by omega) (by omega), hread 10 (by omega) (by omega),
      hread 11 (by omega) (by omega), hread 12 (by omega) (by omega)]
    exact ih fun i hn hi h4 => h (12 + i) (by omega) (by omega) (by omega)

theorem tailByte_congr {len i : ℕ} {key key' : ℕ → UInt32} {shift : UInt32}
    (h : i < len → key i = key' i) : tailByte len key i shift = tailByte len key' i shift := by
  unfold tailByte
  by_cases hi : i < len
  · rw [if_pos hi, if_pos hi, h hi]
  · rw [if_neg hi, if_neg hi]

theorem lastBytes_congr {len : ℕ} {key key' : ℕ → UInt32} {m : Mixed}
    (h : ∀ i < len, key i = key' i) : lastBytes len key m = lastBytes len key' m := by
  have htail : ∀ i shift, tailByte len key i shift = tailByte len key' i shift :=
    fun i shift => tailByte_congr (h i)
  simp only [lastBytes, htail]

/-- Keys of one length that agree where the hash reads have one hash. -/
theorem keyHash_congr {conf : TableConf} {key key' : Memory}
    (hlen : conf.hashLength key = conf.hashLength key')
    (h : ∀ i, Reads (conf.hashLength key) i → conf.hashByte key i = conf.hashByte key' i) :
    conf.keyHash key = conf.keyHash key' := by
  unfold keyHash
  rw [← hlen]
  generalize conf.hashLength key = len at h
  have hrounds : ∀ m, rounds (len / 12) (conf.hashByte key) m =
      rounds (len / 12) (conf.hashByte key') m := by
    intro m
    refine rounds_congr fun i hn hi h4 => h i ⟨?_, by omega⟩
    by_cases hlt : i < len
    · exact .inl hlt
    · exact .inr ⟨by omega, by omega, by omega⟩
  have hlast : ∀ m, lastBytes (len % 12) (fun i => conf.hashByte key (len / 12 * 12 + i)) m =
      lastBytes (len % 12) (fun i => conf.hashByte key' (len / 12 * 12 + i)) m := by
    intro m
    refine lastBytes_congr fun i hi => h _ ⟨.inl (by omega), by omega⟩
  simp only [hrounds, hlast]

/-! ### The length of a string -/

/-- The position of the terminator, if it comes within the length. -/
def textLength (keylen : ℕ) (key : Memory) : ℕ :=
  ((List.range keylen).find? fun i => key i = 0).getD keylen

theorem textLength_spec (keylen : ℕ) (key : Memory) :
    textLength keylen key ≤ keylen ∧ (∀ j < textLength keylen key, key j ≠ 0) ∧
      (textLength keylen key < keylen → key (textLength keylen key) = 0) := by
  unfold textLength
  cases hfind : (List.range keylen).find? fun i => key i = 0 with
  | none =>
    rw [Option.getD_none]
    refine ⟨le_rfl, fun j hj => ?_, fun h => absurd h (lt_irrefl _)⟩
    simpa using List.find?_eq_none.mp hfind j (List.mem_range.mpr hj)
  | some n =>
    rw [Option.getD_some]
    obtain ⟨hn, i, hi, heq, hbefore⟩ := List.find?_eq_some_iff_getElem.mp hfind
    rw [List.getElem_range] at heq
    subst heq
    rw [List.length_range] at hi
    refine ⟨hi.le, fun j hj => ?_, fun _ => by simpa using hn⟩
    simpa using hbefore j hj

theorem textLength_unique {keylen n : ℕ} {key : Memory} (hle : n ≤ keylen)
    (hbefore : ∀ j < n, key j ≠ 0) (hend : n < keylen → key n = 0) : textLength keylen key = n := by
  obtain ⟨hle', hbefore', hend'⟩ := textLength_spec keylen key
  rcases Nat.lt_trichotomy (textLength keylen key) n with hlt | heq | hgt
  · exact absurd (hend' (by omega)) (hbefore _ hlt)
  · exact heq
  · exact absurd (hend (by omega)) (hbefore' _ hgt)

variable {conf} {key key' : Memory} {size : UInt32}

theorem hashLength_of_string (h : conf.string = true) :
    conf.hashLength key = textLength conf.keylen key % 2 ^ 32 := by
  rw [hashLength, if_pos h, textLength]

theorem hashLength_of_binary (h : conf.string = false) :
    conf.hashLength key = conf.keylen % 2 ^ 32 := by
  rw [hashLength, if_neg (by simp [h])]

/-- Keys whose bytes are zero alike have one length. -/
theorem hashLength_congr (h : ∀ i, conf.Within key i → (key i = 0 ↔ key' i = 0)) :
    conf.hashLength key = conf.hashLength key' := by
  cases hs : conf.string with
  | false => rw [hashLength_of_binary hs, hashLength_of_binary hs]
  | true =>
    obtain ⟨hle, hbefore, hend⟩ := textLength_spec conf.keylen key
    rw [hashLength_of_string hs, hashLength_of_string hs,
      @textLength_unique conf.keylen _ key' hle (fun j hj => ?_) fun hlt => ?_]
    · have hj' : conf.Within key j := ⟨by omega, fun _ k hk => hbefore k (by omega)⟩
      exact fun hzero => hbefore j hj ((h j hj').mpr hzero)
    · exact (h _ ⟨hlt, fun _ => hbefore⟩).mp (hend hlt)

/-! ### Tables for which it is sound -/

/-- What is read is the key. -/
theorem within_of_reads (hsound : conf.SoundConf) {i : ℕ}
    (hi : Reads (conf.hashLength key) i) : conf.Within key i := by
  obtain ⟨hi, -⟩ := hi
  cases hs : conf.string with
  | false =>
    rw [hashLength_of_binary hs] at hi
    refine ⟨?_, by simp [hs]⟩
    rcases hsound with hzero | hshort
    · rw [hzero] at hi
      omega
    · rw [if_neg (by simp [hs])] at hshort
      rw [Nat.mod_eq_of_lt (by omega)] at hi
      omega
  | true =>
    obtain ⟨hle, hbefore, hend⟩ := textLength_spec conf.keylen key
    rw [hashLength_of_string hs] at hi
    have hmod := Nat.mod_le (textLength conf.keylen key) (2 ^ 32)
    have hlt : i < conf.keylen := by
      rcases hsound with hzero | hpast
      · omega
      · rw [if_pos hs, ReadsPast] at hpast
        -- the byte behind the last round is there unless rounds fill a key of full length
        by_contra hge
        have hfull : textLength conf.keylen key % 2 ^ 32 = conf.keylen := by omega
        have hlong : conf.keylen < 2 ^ 32 := hfull ▸ Nat.mod_lt _ (by decide)
        refine hpast.2 ⟨?_, hlong⟩
        rcases hi with hi | ⟨-, hdvd, -⟩
        · omega
        · exact hfull ▸ hdvd
    exact ⟨hlt, fun _ j hj => hbefore j (by omega)⟩

/-- Keys that agree in what is hashed of them. -/
theorem keyBucket_congr (hsound : conf.SoundConf)
    (h : ∀ i, conf.Within key i → (key i = 0 ↔ key' i = 0))
    (hbyte : ∀ i, conf.Within key i → conf.hashByte key i = conf.hashByte key' i) :
    conf.keyBucket size key = conf.keyBucket size key' := by
  rw [keyBucket, keyBucket, keyHash_congr (hashLength_congr h) fun i hi =>
    hbyte i (within_of_reads hsound hi)]

/-- The comparison says no more than the hash takes. -/
theorem keyBucket_of_same (hsound : conf.SoundConf) (h : conf.Same key key') :
    conf.keyBucket size key = conf.keyBucket size key' := by
  cases hs : conf.string with
  | false =>
    have hbyte : ∀ i, conf.Within key i → key i = key' i := by
      intro i hi
      simpa [hs] using h i hi
    refine keyBucket_congr hsound (fun i hi => by rw [hbyte i hi]) fun i hi => ?_
    rw [hashByte, hashByte, hbyte i hi]
  | true =>
    have hbyte : ∀ i, conf.Within key i → toLower (key i) = toLower (key' i) := by
      intro i hi
      simpa [hs] using h i hi
    refine keyBucket_congr hsound (fun i hi => ?_) fun i hi => ?_
    · rw [← toLower_eq_zero, hbyte i hi, toLower_eq_zero]
    · have hnocase : conf.nocase = true := by
        rcases hsound with hzero | hcond
        · have hlt := hi.1
          omega
        · rw [if_pos hs] at hcond
          exact hcond.1
      rw [hashByte, hashByte, hnocase, if_pos rfl, if_pos rfl, hbyte i hi]

/-! ### Buckets by their low bits -/

/-- A table as far as its hash goes. -/
def plain (nocase string : Bool) (keylen : ℕ) : TableConf :=
  ⟨nocase, string, false, 0, keylen, fun _ _ _ => 0⟩

theorem keyHash_eq_plain :
    conf.keyHash key = (plain conf.nocase conf.string conf.keylen).keyHash key := rfl

theorem TableSize.and_63 (h : TableSize size) : (size - 1) &&& 63 = 63 := by
  obtain ⟨k, hk, hlt, rfl⟩ := h
  have hall : ∀ k < 32, 6 ≤ k → (UInt32.ofNat (2 ^ k) - 1) &&& 63 = 63 := by decide +kernel
  exact hall k hlt hk

/-- Every table tells hashes apart that differ in their last six bits. -/
theorem keyBucket_ne (hsize : TableSize size)
    (h : conf.keyHash key &&& 63 ≠ conf.keyHash key' &&& 63) :
    conf.keyBucket size key ≠ conf.keyBucket size key' := by
  intro heq
  refine h ?_
  have hmask : ∀ x : UInt32, x &&& 63 = (x &&& (size - 1)) &&& 63 := by
    intro x
    rw [UInt32.and_assoc, hsize.and_63]
  rw [hmask, hmask (conf.keyHash key')]
  exact congrArg (· &&& 63) heq

/-- A key of zeros but for one byte. -/
def single (i : ℕ) (c : UInt8) : Memory := fun j => if j = i then c else 0

/-- Of a key shorter than a round, each byte counts. -/
theorem exists_single_ne : ∀ n < 12, ∀ i < n, ∀ nocase : Bool, ∃ c ∈ [(1 : UInt8), 2],
    (plain nocase false n).keyHash (single i 0) &&& 63 ≠
      (plain nocase false n).keyHash (single i c) &&& 63 := by
  decide +kernel

theorem sound_of_soundConf (hcmp : conf.Compares) (hsize : TableSize size)
    (hsound : conf.SoundConf) : conf.KeyHashSound size where
  alike key key' h := keyBucket_of_same hsound (hcmp.same key key' h)
  within key key' h := by
    refine keyBucket_of_same hsound fun i hi => ?_
    rw [h i hi]
    split <;> rfl
  every hs i hi := by
    have hshort : conf.keylen < 12 := by
      rcases hsound with hzero | hshort
      · omega
      · simpa [hs] using hshort
    obtain ⟨c, -, hc⟩ := exists_single_ne conf.keylen hshort i hi conf.nocase
    refine ⟨single i 0, single i c, fun j hj => by simp [single, hj], keyBucket_ne hsize ?_⟩
    rw [keyHash_eq_plain, @keyHash_eq_plain conf (single i c), hs]
    exact hc

/-! ### The other tables -/

/-- Of a binary key as long as a round or longer, some byte does not count. -/
theorem not_sound_of_long (hs : conf.string = false) (hlong : 12 ≤ conf.keylen) :
    ¬ conf.KeyHashSound size := by
  intro hsound
  have hunread : ∃ i < conf.keylen, ¬ Reads (conf.keylen % 2 ^ 32) i := by
    rcases lt_or_ge conf.keylen (2 ^ 32) with hlt | hge
    · rw [Nat.mod_eq_of_lt hlt]
      refine ⟨4, by omega, ?_⟩
      rintro ⟨-, hread⟩
      exact hread ⟨rfl, by omega⟩
    · -- there are more bytes than the length can count
      have hmod := Nat.mod_lt conf.keylen (show 0 < 2 ^ 32 by decide)
      generalize hlen : conf.keylen % 2 ^ 32 = len at hmod
      refine ⟨conf.keylen - 1, by omega, ?_⟩
      rintro ⟨hread, -⟩
      rcases hread with hlt | ⟨-, -, heq⟩
      · omega
      · have hdiv := Nat.div_add_mod conf.keylen (2 ^ 32)
        omega
  obtain ⟨i, hi, hunread⟩ := hunread
  obtain ⟨key, key', hkeys, hne⟩ := hsound.every hs i hi
  refine hne ?_
  have hlen : conf.hashLength key = conf.hashLength key' := by
    rw [hashLength_of_binary hs, hashLength_of_binary hs]
  rw [keyBucket, keyBucket, keyHash_congr hlen fun j hj => ?_]
  have hji : j ≠ i := by
    rintro rfl
    rw [hashLength_of_binary hs] at hj
    exact hunread hj
  rw [hashByte, hashByte, hkeys j hji]

/-- A key of one letter. -/
def letter (c : UInt8) : Memory := single 0 c

/-- What is left of the hash of one letter. -/
theorem keyHash_letter (hs : conf.string = true) (hnocase : conf.nocase = false)
    (hpos : 0 < conf.keylen) {c : UInt8} (hc : c ≠ 0) :
    conf.keyHash (letter c) = (plain false true 1).keyHash (letter c) := by
  have hlen : ∀ keylen, 0 < keylen → textLength keylen (letter c) = 1 := by
    intro keylen hpos
    refine textLength_unique hpos (fun j hj => ?_) fun _ => rfl
    obtain rfl : j = 0 := by omega
    exact hc
  have hlength : conf.hashLength (letter c) = (plain false true 1).hashLength (letter c) := by
    rw [hashLength_of_string hs, @hashLength_of_string (plain false true 1) _ rfl,
      hlen _ hpos, hlen (plain false true 1).keylen Nat.one_pos]
  have hbyte : conf.hashByte (letter c) = (plain false true 1).hashByte (letter c) := by
    funext i
    rw [hashByte, hashByte, hnocase]
    rfl
  rw [keyHash, keyHash, hlength, hbyte]

/-- Letters that differ in case are equal, and hash apart. -/
theorem not_sound_of_case (hcmp : conf.Compares) (hsize : TableSize size)
    (hs : conf.string = true) (hnocase : conf.nocase = false) (hpos : 0 < conf.keylen) :
    ¬ conf.KeyHashSound size := by
  intro hsound
  have hlower : ∀ i, toLower (letter 65 i) = toLower (letter 97 i) := by
    intro i
    unfold letter single
    split
    · decide
    · rfl
  have halike := hsound.alike (letter 65) (letter 97) (hcmp.folds hs _ _ hlower)
  refine keyBucket_ne hsize ?_ halike
  rw [keyHash_letter hs hnocase hpos (by decide), keyHash_letter hs hnocase hpos (by decide)]
  decide +kernel

/-- A key of full length, and the byte behind it. -/
def full (keylen : ℕ) (c : UInt8) : Memory :=
  fun i => if i < keylen then 97 else if i = keylen then c else 0

/-- A round over the letter `a`, with this byte behind it. -/
def lap (x : UInt32) (m : Mixed) : Mixed :=
  mix { a := m.a + word 97 97 97 97
        b := m.b + word 97 97 97 97
        c := m.c + word 97 97 97 x }

theorem rounds_full {n : ℕ} {key : ℕ → UInt32} (hkey : ∀ i < 12 * (n + 1), key i = 97) (m : Mixed) :
    rounds (n + 1) key m = lap (key (12 * (n + 1))) ((lap 97)^[n] m) := by
  induction n generalizing key m with
  | zero =>
    rw [rounds, hkey 0 (by omega), hkey 1 (by omega), hkey 2 (by omega), hkey 3 (by omega),
      hkey 5 (by omega), hkey 6 (by omega), hkey 7 (by omega), hkey 8 (by omega),
      hkey 9 (by omega), hkey 10 (by omega), hkey 11 (by omega)]
    rfl
  | succ n ih =>
    rw [rounds, hkey 0 (by omega), hkey 1 (by omega), hkey 2 (by omega), hkey 3 (by omega),
      hkey 5 (by omega), hkey 6 (by omega), hkey 7 (by omega), hkey 8 (by omega),
      hkey 9 (by omega), hkey 10 (by omega), hkey 11 (by omega), hkey 12 (by omega),
      ih fun i hi => hkey (12 + i) (by omega)]
    rw [show 12 + 12 * (n + 1) = 12 * (n + 1 + 1) by omega, Function.iterate_succ_apply]
    rfl

/-- The end of the hash, with no bytes left. -/
def hashed (len : ℕ) (m : Mixed) : UInt32 :=
  (mix (lastBytes 0 (fun _ => 0) { m with c := m.c + UInt32.ofNat len })).c

/-- The hash of a key of full length. -/
theorem keyHash_full {n : ℕ} (hn : n < 100) (c : UInt8) :
    (plain true true (12 * (n + 1))).keyHash (full (12 * (n + 1)) c) =
      hashed (12 * (n + 1)) (lap (toLower c).toUInt32
        ((lap 97)^[n] { a := 0x9e3779b9, b := 0x9e3779b9, c := 0xb33ff00d })) := by
  have hlength : (plain true true (12 * (n + 1))).hashLength (full (12 * (n + 1)) c) =
      12 * (n + 1) := by
    have htext : textLength (12 * (n + 1)) (full (12 * (n + 1)) c) = 12 * (n + 1) := by
      refine textLength_unique le_rfl (fun j hj => ?_) fun hlt => absurd hlt (lt_irrefl _)
      rw [full, if_pos hj]
      decide
    rw [hashLength_of_string rfl]
    show textLength (12 * (n + 1)) _ % 2 ^ 32 = _
    rw [htext]
    omega
  have hbyte : ∀ i < 12 * (n + 1),
      (plain true true (12 * (n + 1))).hashByte (full (12 * (n + 1)) c) i = 97 := by
    intro i hi
    rw [hashByte, full, if_pos hi]
    show (toLower 97).toUInt32 = 97
    decide
  have hlast : (plain true true (12 * (n + 1))).hashByte (full (12 * (n + 1)) c) (12 * (n + 1)) =
      (toLower c).toUInt32 := by
    rw [hashByte, full, if_neg (lt_irrefl _), if_pos rfl]
    rfl
  unfold keyHash
  dsimp only
  rw [hlength, Nat.mul_div_cancel_left _ (by decide), Nat.mul_mod_right, rounds_full hbyte, hlast]
  exact congrArg (fun m => (mix m).c) (lastBytes_congr fun i hi => absurd hi (Nat.not_lt_zero i))

/-! The laps are counted with numbers, which the kernel is quick at. -/

/-- The difference of two `uint32_t`. -/
def sub32 (x y : ℕ) : ℕ := (4294967296 - y + x) % 4294967296

/-- `mix` on numbers. -/
def mixNat {β : Type} (a b c : ℕ) (k : ℕ → ℕ → ℕ → β) : β :=
  let a := sub32 (sub32 a b) c ^^^ (c >>> 13)
  let b := sub32 (sub32 b c) a ^^^ ((a <<< 8) % 4294967296)
  let c := sub32 (sub32 c a) b ^^^ (b >>> 13)
  let a := sub32 (sub32 a b) c ^^^ (c >>> 12)
  let b := sub32 (sub32 b c) a ^^^ ((a <<< 16) % 4294967296)
  let c := sub32 (sub32 c a) b ^^^ (b >>> 5)
  let a := sub32 (sub32 a b) c ^^^ (c >>> 3)
  let b := sub32 (sub32 b c) a ^^^ ((a <<< 10) % 4294967296)
  let c := sub32 (sub32 c a) b ^^^ (b >>> 15)
  k a b c

theorem mixNat_eq {β : Type} (m : Mixed) (k : ℕ → ℕ → ℕ → β) :
    mixNat m.a.toNat m.b.toNat m.c.toNat k =
      k (mix m).a.toNat (mix m).b.toNat (mix m).c.toNat := by
  simp only [mixNat, mix, sub32, UInt32.toNat_sub, UInt32.toNat_xor, UInt32.toNat_shiftLeft,
    UInt32.toNat_shiftRight]
  rfl

/-- `lap` on numbers. -/
def lapNat {β : Type} (x a b c : ℕ) (k : ℕ → ℕ → ℕ → β) : β :=
  mixNat ((a + 1633771873) % 4294967296) ((b + 1633771873) % 4294967296)
    ((c + (6381921 + x * 16777216)) % 4294967296) k

theorem lapNat_eq {β : Type} {x : UInt32} (hx : x ∈ [0, 1, 97]) (m : Mixed) (k : ℕ → ℕ → ℕ → β) :
    lapNat x.toNat m.a.toNat m.b.toNat m.c.toNat k =
      k (lap x m).a.toNat (lap x m).b.toNat (lap x m).c.toNat := by
  have hword : (word 97 97 97 97).toNat = 1633771873 := by decide +kernel
  have hlast : ∀ x ∈ [(0 : UInt32), 1, 97],
      (word 97 97 97 x).toNat = 6381921 + x.toNat * 16777216 := by
    intro x hx
    simp only [List.mem_cons, List.not_mem_nil, or_false] at hx
    rcases hx with rfl | rfl | rfl <;> rfl
  refine Eq.trans ?_ (mixNat_eq _ k)
  simp only [lapNat, UInt32.toNat_add, hword, hlast x hx]

/-- The last bits of `hashed` on numbers. -/
def hashedNat (len a b c : ℕ) : ℕ := mixNat a b ((c + len) % 4294967296) fun _ _ c => c &&& 63

theorem hashedNat_eq {len : ℕ} (hlen : len < 4294967296) (m : Mixed) :
    hashedNat len m.a.toNat m.b.toNat m.c.toNat = (hashed len m &&& 63).toNat := by
  have hlast : lastBytes 0 (fun _ => 0) { m with c := m.c + UInt32.ofNat len } =
      { m with c := m.c + UInt32.ofNat len } := by
    simp [lastBytes, tailByte]
  have hmix := mixNat_eq { m with c := m.c + UInt32.ofNat len } fun _ _ c => c &&& 63
  rw [hashed, hlast, UInt32.toNat_and]
  refine Eq.trans ?_ hmix
  simp only [hashedNat, UInt32.toNat_add, UInt32.toNat_ofNat', Nat.mod_eq_of_lt hlen]

/-- For so many lengths in turn, the byte behind the key counts. -/
def lapsApart : ℕ → ℕ → ℕ → ℕ → ℕ → Bool
  | 0, _, _, _, _ => true
  | k + 1, n, a, b, c =>
      lapNat 0 a b c (hashedNat (12 * (n + 1))) != lapNat 1 a b c (hashedNat (12 * (n + 1))) &&
        lapNat 97 a b c (lapsApart k (n + 1))

theorem lapsApart_spec {k n : ℕ} {m : Mixed} (hn : n + k ≤ 100)
    (h : lapsApart k n m.a.toNat m.b.toNat m.c.toNat = true) :
    ∀ j < k, hashed (12 * (n + j + 1)) (lap 0 ((lap 97)^[j] m)) &&& 63 ≠
      hashed (12 * (n + j + 1)) (lap 1 ((lap 97)^[j] m)) &&& 63 := by
  induction k generalizing n m with
  | zero =>
    intro j hj
    omega
  | succ k ih =>
    intro j hj
    have hlen : 12 * (n + 1) < 4294967296 := by omega
    rw [lapsApart, Bool.and_eq_true, bne_iff_ne] at h
    have hzero := lapNat_eq (x := 0) (by decide) m (hashedNat (12 * (n + 1)))
    have hone := lapNat_eq (x := 1) (by decide) m (hashedNat (12 * (n + 1)))
    have hnext := lapNat_eq (x := 97) (by decide) m (lapsApart k (n + 1))
    rw [hashedNat_eq hlen] at hzero hone
    cases j with
    | zero =>
      intro heq
      exact h.1 (hzero.trans ((congrArg UInt32.toNat heq).trans hone.symm))
    | succ j =>
      have hrest := ih (m := lap 97 m) (show n + 1 + k ≤ 100 by omega) (hnext.symm.trans h.2) j
        (by omega)
      rw [show n + 1 + j = n + (j + 1) by omega] at hrest
      rw [Function.iterate_succ_apply]
      exact hrest

/-- Where rounds fill the key, the byte behind it counts. -/
theorem exists_full_ne : ∀ n < 100,
    (plain true true (12 * (n + 1))).keyHash (full (12 * (n + 1)) 0) &&& 63 ≠
      (plain true true (12 * (n + 1))).keyHash (full (12 * (n + 1)) 1) &&& 63 := by
  intro n hn
  have hapart : lapsApart 100 0 (0x9e3779b9 : UInt32).toNat (0x9e3779b9 : UInt32).toNat
      (0xb33ff00d : UInt32).toNat = true := by
    decide +kernel
  have hne := lapsApart_spec (m := { a := 0x9e3779b9, b := 0x9e3779b9, c := 0xb33ff00d })
    (by decide) hapart n hn
  rw [Nat.zero_add] at hne
  rw [keyHash_full hn, keyHash_full hn]
  exact hne

theorem not_sound_of_readsPast (hsize : TableSize size) (hs : conf.string = true)
    (hnocase : conf.nocase = true) (hpos : 0 < conf.keylen) (hdvd : 12 ∣ conf.keylen)
    (hle : conf.keylen ≤ 1200) : ¬ conf.KeyHashSound size := by
  intro hsound
  obtain ⟨n, hn⟩ := hdvd
  have hwithin := hsound.within (full conf.keylen 0) (full conf.keylen 1) fun i hi => by
    rw [full, full, if_pos hi.1, if_pos hi.1]
  refine keyBucket_ne hsize ?_ hwithin
  rw [keyHash_eq_plain, @keyHash_eq_plain conf (full conf.keylen 1), hs, hnocase]
  have hn' : conf.keylen = 12 * (n - 1 + 1) := by omega
  rw [hn']
  exact exists_full_ne (n - 1) (by omega)

/-- Equal keys hash alike, only bytes of the key count, and every one of a binary key: that is so
for strings that are hashed without regard to case and that no whole rounds fill, and for binary
keys shorter than a round. For other tables it is not, but for strings beyond a length of 1200 that
whole rounds fill: there the byte behind the key is read, too. -/
theorem keyHash_sound (conf : TableConf) (size : UInt32) (hcmp : conf.Compares)
    (hsize : TableSize size) :
    (conf.SoundConf → conf.KeyHashSound size) ∧
      (conf.KeyHashSound size → conf.SoundConf ∨ conf.string = true ∧ conf.ReadsPast ∧
        1200 < conf.keylen) := by
  refine ⟨sound_of_soundConf hcmp hsize, fun hsound => ?_⟩
  by_contra hnot
  rw [not_or] at hnot
  obtain ⟨hconf, hlong⟩ := hnot
  rw [SoundConf, not_or] at hconf
  obtain ⟨hzero, hcond⟩ := hconf
  have hpos : 0 < conf.keylen := Nat.pos_of_ne_zero hzero
  cases hs : conf.string with
  | false =>
    rw [if_neg (by simp [hs])] at hcond
    exact not_sound_of_long hs (by omega) hsound
  | true =>
    rw [if_pos hs, not_and_not_right] at hcond
    cases hnocase : conf.nocase with
    | false => exact not_sound_of_case hcmp hsize hs hnocase hpos hsound
    | true =>
      have hpast := hcond hnocase
      refine not_sound_of_readsPast hsize hs hnocase hpos hpast.1 ?_ hsound
      by_contra hgt
      exact hlong ⟨hs, hpast, by omega⟩

/-- `strncasecmp`, as far as it finds a difference. -/
def caseDiffers (key key' : Memory) (n : ℕ) : ℤ :=
  if (List.range n).all fun i =>
    (List.range i).any (fun j => key j == 0) || toLower (key i) == toLower (key' i) then 0 else 1

/-- The table of channels: `CHANLEN` bytes of a name. -/
def channelConf : TableConf := ⟨true, true, false, 0, 32, caseDiffers⟩

theorem compares_channelConf : channelConf.Compares where
  same key key' h i hi := by
    obtain ⟨hlt, hnul⟩ := hi
    have hall : ∀ i < 32, (∀ j < i, key j ≠ 0) → toLower (key i) = toLower (key' i) := by
      simpa [channelConf, caseDiffers] using h
    exact hall i hlt (hnul rfl)
  folds _ key key' h := by
    simp [channelConf, caseDiffers, h]

theorem keyHash_sound_channels : channelConf.KeyHashSound 128 :=
  (keyHash_sound channelConf 128 compares_channelConf ⟨7, by decide, by decide, rfl⟩).1
    (.inr ⟨rfl, fun h => absurd h.1 (by decide)⟩)

/-- The table of addresses that `throttle.c` counts: sixteen bytes, compared as they are. -/
def throttleConf : TableConf :=
  ⟨false, false, false, 0, 16, fun key key' n =>
    if (List.range n).all fun i => key i == key' i then 0 else 1⟩

theorem compares_throttleConf : throttleConf.Compares where
  same key key' h i hi := by
    have hall : ∀ i < 16, key i = key' i := by simpa [throttleConf] using h
    exact hall i hi.1
  folds h := by cases h

/-- The fifth byte of an address does not count. -/
theorem keyHash_fails : ¬ ∀ conf size, TableConf.Compares conf → TableSize size →
    conf.KeyHashSound size := by
  intro hall
  exact not_sound_of_long rfl (by decide)
    (hall throttleConf 128 compares_throttleConf ⟨7, by decide, by decide, rfl⟩)

end TableConf

end Ithildin
