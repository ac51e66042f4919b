import Ithildin.Address
import Ithildin.BaseN
import Ithildin.Lib.Buffer
import Mathlib.Data.Set.Function

/-!
# Hostname encryption with md5

* `addressOf`: the tests for an IP address;
* `strrchr`, `walkBack`: the place behind which the interesting part of a host starts;
* `hostcryptMd5`: `hostcrypt_md5` on its three arrays;
* `hostcryptMd5_iff`: when hosts are grouped by domain, and when the arrays are large enough.
-/

namespace Ithildin

open Buffer

/-- `LENGTH`: the bytes of a digest. -/
def LENGTH : ℕ := 16

/-- The hash function of `md5.c`. -/
structure Md5 where
  digest : Bytes → Bytes
  length_digest : ∀ data, (digest data).length = LENGTH

/-- Two digits for each byte of a digest. -/
def hexDigits (digest : Bytes) : Bytes :=
  digest.flatMap fun c =>
    [Encoding.base16.digit (c.toNat / 16), Encoding.base16.digit (c.toNat % 16)]

/-- `md5_data` with the buffer at `pos` of an array. -/
def md5Data (md5 : Md5) (data : Bytes) (pos : ℕ) (mem : Bytes) : Bytes :=
  storeAt pos (hexDigits (md5.digest data) ++ [0]) mem

/-- The IP address that a host name spells. -/
def addressOf (host : Bytes) : Option (Family × Bytes) :=
  match (if colon ∈ host then inetPton6 host else none) with
  | some addr => some (.inet6, addr)
  | none => (if dot ∈ host then inetPton4 host else none).map fun addr => (.inet, addr)

/-- `strrchr`, as an index. -/
def strrchr (c : UInt8) : Bytes → Option ℕ
  | [] => none
  | d :: s =>
      match strrchr c s with
      | some i => some (i + 1)
      | none => if d = c then some 0 else none

/-- `while (*s != '.' && s > cli->orighost) s--`. -/
def walkBack (host : Bytes) : ℕ → ℕ
  | 0 => 0
  | s + 1 => if host[s + 1]? ≠ some dot then walkBack host s else s + 1

/-- `"%32s"`. -/
def pad32 (s : Bytes) : Bytes := List.replicate (32 - s.length) blank ++ s

/-- The text that is printed into `buf` for a host name. -/
def domainText (host md5buf : Bytes) : Bytes :=
  match strrchr dot host with
  | none => pad32 (strAt md5buf) ++ dot :: host
  | some s =>
      let s := walkBack host s
      if s = 0 then pad32 (strAt md5buf) ++ dot :: host else host.drop (s + 1)

/-- `buf`, `md5buf` and `addr`. -/
structure Md5Arrays where
  buf : Bytes
  md5buf : Bytes
  addr : Bytes
  deriving DecidableEq

/-- No array was overrun. -/
structure Md5Arrays.Inside (mem : Md5Arrays) : Prop where
  buf : mem.buf.length = HOSTLEN + 1
  md5buf : mem.md5buf.length = 65
  addr : mem.addr.length = IPADDR_SIZE

/-- The part of the function that fills `md5buf`. -/
def hashHost (md5 : Md5) (host : Bytes) (mem : Md5Arrays) : Md5Arrays :=
  match addressOf host with
  | some (family, bytes) =>
      let alen := match family with
        | .inet6 => IPADDR_SIZE
        | .inet => 4
      let addr := storeAt 0 bytes mem.addr
      let md5buf := md5Data md5 (addr.take alen) 0 mem.md5buf
      let addr := storeAt (alen / 2) (List.replicate (alen / 2) 0) addr
      { mem with addr := addr, md5buf := md5Data md5 (addr.take alen) 32 md5buf }
  | none =>
      let md5buf := md5Data md5 host 0 mem.md5buf
      let buf := storeAt 0 (domainText host md5buf ++ [0]) mem.buf
      { mem with buf := buf, md5buf := md5Data md5 (strAt buf) 32 md5buf }

/-- `alen += str_base_encode(BASE32_ENCODING, buf + alen, src, 8)`. -/
def putBase32 (src : Bytes) (k : Writer UInt8) : Writer UInt8 :=
  let (dest, count) := strBaseEncode .base32 src
  ⟨storeAt k.s (dest ++ [0]) k.buf, k.s + count⟩

/-- The end of the function: the four chunks of the raw data. -/
def putChunks (raw buf : Bytes) : Writer UInt8 :=
  let k := putBase32 (raw.take 8) ⟨buf, 0⟩
  let k := putBase32 ((raw.drop 8).take 8) (k.put dot)
  let k := putBase32 ((raw.drop 16).take 8) (k.put dot)
  let k := putBase32 ((raw.drop 24).take 8) (k.put dot)
  k.put 0

/-- `hostcrypt_md5`. -/
def hostcryptMd5 (md5 : Md5) (host : Bytes) (mem : Md5Arrays) : Md5Arrays :=
  let mem := hashHost md5 host mem
  let md5buf := storeAt 0 (strBaseDecode .base16 (mem.md5buf.take 64)).1 mem.md5buf
  { mem with md5buf := md5buf, buf := (putChunks md5buf mem.buf).buf }

/-! ### Digests as text -/

theorem length_hexDigits (digest : Bytes) : (hexDigits digest).length = 2 * digest.length := by
  induction digest with
  | nil => rfl
  | cons c digest ih =>
    rw [hexDigits, List.flatMap_cons, List.length_append, ← hexDigits, ih]
    simp only [List.length_cons, List.length_nil]
    omega

theorem hexDigits_append (s t : Bytes) : hexDigits (s ++ t) = hexDigits s ++ hexDigits t :=
  List.flatMap_append

theorem digit_ne {e : Encoding} {i : ℕ} (hi : i < 2 ^ e.type) :
    e.digit i ≠ 0 ∧ e.digit i ≠ dot := by
  have hall : ∀ e : Encoding, ∀ i < 2 ^ e.type, e.digit i ≠ 0 ∧ e.digit i ≠ dot := by
    intro e
    cases e <;> decide +kernel
  exact hall e i hi

theorem isText_hexDigits (digest : Bytes) : IsText (hexDigits digest) := by
  intro h
  simp only [hexDigits, List.mem_flatMap, List.mem_cons, List.not_mem_nil, or_false] at h
  obtain ⟨c, -, h | h⟩ := h
  · have hc := c.toNat_lt
    exact (digit_ne (by change c.toNat / 16 < 16; omega)).1 h.symm
  · exact (digit_ne (by change c.toNat % 16 < 16; omega)).1 h.symm

/-- The digits are read as the bytes that they were printed for. -/
theorem strBaseDecode_hexDigits (digest : Bytes) :
    (strBaseDecode .base16 (hexDigits digest)).1 = digest := by
  have hunits : ∀ i ∈ digest.flatMap (fun c => [c.toNat / 16, c.toNat % 16]),
      i < 2 ^ Encoding.base16.type := by
    intro i hi
    simp only [List.mem_flatMap, List.mem_cons, List.not_mem_nil, or_false] at hi
    obtain ⟨c, -, hi⟩ := hi
    have hc := c.toNat_lt
    change i < 16
    omega
  have hhex : hexDigits digest =
      (digest.flatMap fun c => [c.toNat / 16, c.toNat % 16]).map Encoding.base16.digit := by
    rw [List.map_flatMap]
    rfl
  have hbits : (digest.flatMap fun c => [c.toNat / 16, c.toNat % 16]).flatMap (Bits.ofNat 4) =
      Bits.ofBytes digest := by
    rw [List.flatMap_assoc]
    refine List.flatMap_congr fun c _ => ?_
    have hsplit := Bits.ofNat_append (n := 4) (v := c.toNat / 16)
      (show c.toNat % 16 < 2 ^ 4 by omega)
    rw [show c.toNat / 16 * 2 ^ 4 + c.toNat % 16 = c.toNat by omega] at hsplit
    rw [List.flatMap_cons, List.flatMap_singleton, hsplit]
  have h := decodes_foldl hunits
  unfold strBaseDecode
  rw [hhex]
  generalize ((digest.flatMap fun c => [c.toNat / 16, c.toNat % 16]).map
    Encoding.base16.digit).foldl (decodeByte .base16) ⟨0, 0, []⟩ = st at h
  have hsplit := h.split.trans hbits
  have hlength := congrArg List.length hsplit
  have hlt := h.bits_lt
  simp only [List.length_append, Bits.length_ofBytes, Bits.length_ofNat] at hlength
  have hzero : st.bits = 0 := by omega
  rw [hzero, Bits.ofNat, List.append_nil] at hsplit
  dsimp only
  rw [if_neg (by simpa using hzero)]
  exact Bits.ofBytes_injective hsplit

/-! ### The chunks of a cloak -/

/-- What eight bytes of raw data become. -/
def base32Chunk (src : Bytes) : Bytes := (strBaseEncode .base32 src).1

/-- The four chunks with dots between them. -/
def cloak (raw : Bytes) : Bytes :=
  base32Chunk (raw.take 8) ++ [dot] ++ base32Chunk ((raw.drop 8).take 8) ++ [dot] ++
    base32Chunk ((raw.drop 16).take 8) ++ [dot] ++ base32Chunk ((raw.drop 24).take 8)

theorem length_base32Chunk {src : Bytes} (h : src.length = 8) : (base32Chunk src).length = 13 := by
  obtain ⟨units, pad, hencode, -, hbits, hpad, -⟩ := exists_units .base32 src
  have hlength := congrArg List.length hbits
  rw [Bits.length_flatMap_ofNat, List.length_append, Bits.length_ofBytes, List.length_replicate,
    h] at hlength
  rw [base32Chunk, hencode, List.length_map]
  change pad < 5 at hpad
  change 5 * units.length = _ at hlength
  omega

theorem ne_of_mem_base32Chunk {src : Bytes} {c : UInt8} (h : c ∈ base32Chunk src) :
    c ≠ 0 ∧ c ≠ dot := by
  obtain ⟨units, -, hencode, hunits, -⟩ := exists_units .base32 src
  rw [base32Chunk, hencode] at h
  obtain ⟨i, hi, rfl⟩ := List.mem_map.1 h
  exact digit_ne (hunits i hi)

theorem base32Chunk_inj {s t : Bytes} (hlength : s.length = t.length) :
    base32Chunk s = base32Chunk t ↔ s = t := by
  constructor
  · intro h
    obtain ⟨js, hs, -⟩ := strBaseDecode_encode .base32 s
    obtain ⟨jt, ht, -⟩ := strBaseDecode_encode .base32 t
    rw [base32Chunk, base32Chunk] at h
    rw [h, ht] at hs
    exact (List.append_inj (congrArg Prod.fst hs).symm hlength).1
  · rintro rfl
    rfl

theorem holds_putBase32 {size : ℕ} {k : Writer UInt8} {text : Bytes} (h : k.Holds size text)
    (src : Bytes) (hroom : text.length + (base32Chunk src).length < size) :
    (putBase32 src k).Holds size (text ++ base32Chunk src) := by
  refine h.store (base32Chunk src) [0] ?_
  rw [List.length_append, List.length_singleton]
  omega

/-- The end of the function leaves the cloak of the raw data and a NUL. -/
theorem putChunks_holds {raw buf : Bytes} (hraw : 32 ≤ raw.length) (hbuf : 56 ≤ buf.length) :
    (putChunks raw buf).Holds buf.length (cloak raw ++ [0]) := by
  have h1 : (base32Chunk (raw.take 8)).length = 13 :=
    length_base32Chunk (by simp only [List.length_take]; omega)
  have h2 : (base32Chunk ((raw.drop 8).take 8)).length = 13 :=
    length_base32Chunk (by simp only [List.length_take, List.length_drop]; omega)
  have h3 : (base32Chunk ((raw.drop 16).take 8)).length = 13 :=
    length_base32Chunk (by simp only [List.length_take, List.length_drop]; omega)
  have h4 : (base32Chunk ((raw.drop 24).take 8)).length = 13 :=
    length_base32Chunk (by simp only [List.length_take, List.length_drop]; omega)
  have hstart : (Writer.mk buf 0).Holds buf.length [] := .start rfl
  have hfirst := (holds_putBase32 hstart (raw.take 8) (by simp [h1]; omega)).put dot
    (by simp [h1]; omega)
  have hsecond := (holds_putBase32 hfirst ((raw.drop 8).take 8) (by simp [h1, h2]; omega)).put dot
    (by simp [h1, h2]; omega)
  have hthird := (holds_putBase32 hsecond ((raw.drop 16).take 8)
    (by simp [h1, h2, h3]; omega)).put dot (by simp [h1, h2, h3]; omega)
  have hfourth := holds_putBase32 hthird ((raw.drop 24).take 8) (by simp [h1, h2, h3, h4]; omega)
  exact hfourth.put 0 (by simp [h1, h2, h3, h4]; omega)

/-! ### The texts that are hashed -/

theorem strAt_storeAt {s : Bytes} (h : IsText s) (mem : Bytes) :
    strAt (storeAt 0 (s ++ [0]) mem) = s := by
  rw [storeAt_zero, List.append_assoc]
  exact strAt_append h _

theorem strrchr_eq_none {c : UInt8} {s : Bytes} : strrchr c s = none ↔ c ∉ s := by
  induction s with
  | nil => simp [strrchr]
  | cons d s ih =>
    cases hs : strrchr c s with
    | none => simp [strrchr, hs, ih.1 hs, eq_comm]
    | some i =>
      have hmem : c ∈ s := by
        by_contra hc
        rw [ih.2 hc] at hs
        cases hs
      simp [strrchr, hs, hmem]

/-- Behind the last of the bytes there is no other. -/
theorem exists_of_strrchr {c : UInt8} {s : Bytes} {i : ℕ} (h : strrchr c s = some i) :
    ∃ pre post, s = pre ++ c :: post ∧ c ∉ post ∧ pre.length = i := by
  induction s generalizing i with
  | nil => cases h
  | cons d s ih =>
    cases hs : strrchr c s with
    | none =>
      obtain ⟨rfl, rfl⟩ : d = c ∧ 0 = i := by simpa [strrchr, hs] using h
      exact ⟨[], s, rfl, strrchr_eq_none.1 hs, rfl⟩
    | some j =>
      obtain rfl : j + 1 = i := by simpa [strrchr, hs] using h
      obtain ⟨pre, post, rfl, hpost, rfl⟩ := ih hs
      exact ⟨d :: pre, post, rfl, hpost, rfl⟩

/-- The text hashed for a name: what is behind the last dot, or all of it behind a seed. -/
def domainOf (seed host : Bytes) : Bytes :=
  match strrchr dot host with
  | some (s + 1) => host.drop (s + 2)
  | _ => seed ++ dot :: host

/-- The loop stands on a dot from the start, so that it does not move. -/
theorem walkBack_strrchr {host : Bytes} {s : ℕ} (h : strrchr dot host = some s) :
    walkBack host s = s := by
  obtain ⟨pre, post, rfl, -, rfl⟩ := exists_of_strrchr h
  cases pre with
  | nil => rfl
  | cons c pre => simp [walkBack]

theorem domainText_eq {host md5buf seed : Bytes} (hseed : strAt md5buf = seed)
    (hlength : seed.length = 32) : domainText host md5buf = domainOf seed host := by
  have hpad : pad32 seed = seed := by simp [pad32, hlength]
  unfold domainText domainOf
  rw [hseed, hpad]
  cases hs : strrchr dot host with
  | none => rfl
  | some s =>
    dsimp only
    rw [walkBack_strrchr hs]
    cases s <;> simp

theorem isText_domainOf {seed host : Bytes} (hseed : IsText seed) (hhost : IsText host) :
    IsText (domainOf seed host) := by
  unfold domainOf
  split
  · exact fun h => hhost (List.mem_of_mem_drop h)
  · intro h
    rcases List.mem_append.1 h with h | h
    · exact hseed h
    · rcases List.mem_cons.1 h with h | h
      · exact absurd h (by decide)
      · exact hhost h

/-- Two digests fill `md5buf`. -/
theorem md5Data_twice (md5 : Md5) (s t : Bytes) {mem : Bytes} (h : mem.length = 65) :
    md5Data md5 t 32 (md5Data md5 s 0 mem) =
      hexDigits (md5.digest s ++ md5.digest t) ++ [0] := by
  have hlength : ∀ data, (hexDigits (md5.digest data)).length = 32 := by
    intro data
    rw [length_hexDigits, md5.length_digest]
    rfl
  have hfirst : md5Data md5 s 0 mem = hexDigits (md5.digest s) ++ ([0] ++ mem.drop 33) := by
    rw [md5Data, storeAt_zero, List.length_append, hlength, List.append_assoc]
    rfl
  have hstore := storeAt_append (hexDigits (md5.digest s)) (hexDigits (md5.digest t) ++ [0])
    ([0] ++ mem.drop 33)
  rw [hlength] at hstore
  rw [hfirst, md5Data, hstore, hexDigits_append]
  have hrest : ([0] ++ mem.drop 33).drop (hexDigits (md5.digest t) ++ [0]).length = [] := by
    apply List.drop_eq_nil_of_le
    simp only [List.length_append, List.length_drop, List.length_singleton, hlength]
    omega
  rw [hrest]
  simp

theorem strAt_md5Data (md5 : Md5) (data mem : Bytes) :
    strAt (md5Data md5 data 0 mem) = hexDigits (md5.digest data) :=
  strAt_storeAt (isText_hexDigits _) mem

/-- `md5buf` holds the digests of two texts. -/
structure Hashed (md5 : Md5) (s t : Bytes) (mem : Md5Arrays) : Prop where
  md5buf : mem.md5buf = hexDigits (md5.digest s ++ md5.digest t) ++ [0]
  addr : mem.addr.length = IPADDR_SIZE

theorem hashHost_name (md5 : Md5) {host : Bytes} {mem : Md5Arrays} (hmem : mem.Inside)
    (hhost : IsText host) (hname : addressOf host = none) :
    Hashed md5 host (domainOf (hexDigits (md5.digest host)) host) (hashHost md5 host mem) ∧
      (hashHost md5 host mem).buf.length =
        max (HOSTLEN + 1) ((domainOf (hexDigits (md5.digest host)) host).length + 1) := by
  have hlength : (hexDigits (md5.digest host)).length = 32 := by
    rw [length_hexDigits, md5.length_digest]
    rfl
  have hseed := isText_hexDigits (md5.digest host)
  have htext := @domainText_eq host _ _ (strAt_md5Data md5 host mem.md5buf) hlength
  unfold hashHost
  rw [hname]
  dsimp only
  rw [htext, strAt_storeAt (isText_domainOf hseed hhost)]
  refine ⟨⟨md5Data_twice md5 _ _ hmem.md5buf, hmem.addr⟩, ?_⟩
  rw [length_storeAt_eq_max (Nat.zero_le _), hmem.buf, List.length_append, Nat.zero_add]
  rfl

theorem addressOf_eq_some {host : Bytes} {family : Family} {b : Bytes}
    (h : addressOf host = some (family, b)) : inetPton family host = some b := by
  unfold addressOf at h
  split at h
  · rename_i addr haddr
    simp only [Option.some.injEq, Prod.mk.injEq] at h
    obtain ⟨rfl, rfl⟩ := h
    exact (Option.ite_none_right_eq_some.1 haddr).2
  · obtain ⟨addr, haddr, heq⟩ := Option.map_eq_some_iff.1 h
    simp only [Prod.mk.injEq] at heq
    obtain ⟨rfl, rfl⟩ := heq
    exact (Option.ite_none_right_eq_some.1 haddr).2

theorem hashHost_address (md5 : Md5) {host : Bytes} {mem : Md5Arrays} (hmem : mem.Inside)
    {family : Family} {b : Bytes} (haddress : addressOf host = some (family, b)) :
    (∃ s t, Hashed md5 s t (hashHost md5 host mem)) ∧
      (hashHost md5 host mem).buf = mem.buf := by
  have hb := addressOf_eq_some haddress
  have haddr := hmem.addr
  have hfits : b.length ≤ IPADDR_SIZE := by
    cases family with
    | inet =>
      rw [length_of_inetPton4 hb]
      decide
    | inet6 => exact (length_of_inetPton6 hb).le
  have hstored : (storeAt 0 b mem.addr).length = IPADDR_SIZE := by
    rw [length_storeAt (by omega), haddr]
  unfold hashHost
  rw [haddress]
  dsimp only
  refine ⟨⟨_, _, md5Data_twice md5 _ _ hmem.md5buf, ?_⟩, rfl⟩
  rw [length_storeAt, hstored]
  rw [hstored, List.length_replicate]
  cases family <;> decide

/-! ### What the function returns -/

/-- The two chunks for a digest. -/
def half (digest : Bytes) : Bytes :=
  base32Chunk (digest.take 8) ++ [dot] ++ base32Chunk (digest.drop 8)

theorem cloak_append {d e : Bytes} (hd : d.length = LENGTH) (he : e.length = LENGTH)
    (rest : Bytes) : cloak (d ++ e ++ rest) = half d ++ [dot] ++ half e := by
  have hd8 : (d.drop 8).length = 8 := by
    rw [List.length_drop, hd]
    rfl
  have he8 : (e.drop 8).length = 8 := by
    rw [List.length_drop, he]
    rfl
  have h1 : (d ++ e ++ rest).take 8 = d.take 8 := by
    rw [List.append_assoc, List.take_append_of_le_length (by rw [hd]; decide)]
  have h2 : ((d ++ e ++ rest).drop 8).take 8 = d.drop 8 := by
    rw [List.append_assoc, List.drop_append_of_le_length (by rw [hd]; decide)]
    exact List.take_left' hd8
  have h3 : ((d ++ e ++ rest).drop 16).take 8 = e.take 8 := by
    rw [List.append_assoc, List.drop_left' (show d.length = 16 from hd)]
    exact List.take_append_of_le_length (by rw [he]; decide)
  have h4 : ((d ++ e ++ rest).drop 24).take 8 = e.drop 8 := by
    have hsplit : (d ++ e ++ rest).drop 24 = ((d ++ (e ++ rest)).drop 16).drop 8 := by
      rw [List.drop_drop, List.append_assoc]
    rw [hsplit, List.drop_left' (show d.length = 16 from hd),
      List.drop_append_of_le_length (by rw [he]; decide)]
    exact List.take_left' he8
  rw [cloak, h1, h2, h3, h4, half, half]
  simp only [List.append_assoc]

/-- From the two digests on, nothing depends on the host. -/
theorem hostcryptMd5_of_hashed {md5 : Md5} {s t host : Bytes} {mem : Md5Arrays}
    (h : Hashed md5 s t (hashHost md5 host mem))
    (hbuf : HOSTLEN + 1 ≤ (hashHost md5 host mem).buf.length) :
    (∃ rest, (hostcryptMd5 md5 host mem).buf =
        half (md5.digest s) ++ [dot] ++ half (md5.digest t) ++ 0 :: rest) ∧
      ((hostcryptMd5 md5 host mem).Inside ↔
        (hashHost md5 host mem).buf.length = HOSTLEN + 1) := by
  have hlength : (md5.digest s ++ md5.digest t).length = 32 := by
    rw [List.length_append, md5.length_digest, md5.length_digest]
    rfl
  have htake : (hexDigits (md5.digest s ++ md5.digest t) ++ [0]).take 64 =
      hexDigits (md5.digest s ++ md5.digest t) := by
    apply List.take_left'
    rw [length_hexDigits, hlength]
  have hraw : storeAt 0 (strBaseDecode .base16 ((hashHost md5 host mem).md5buf.take 64)).1
      (hashHost md5 host mem).md5buf = md5.digest s ++ md5.digest t ++
        (hexDigits (md5.digest s ++ md5.digest t) ++ [0]).drop 32 := by
    rw [h.md5buf, htake, strBaseDecode_hexDigits, storeAt_zero, hlength]
  have hput := @putChunks_holds (md5.digest s ++ md5.digest t ++
    (hexDigits (md5.digest s ++ md5.digest t) ++ [0]).drop 32) (hashHost md5 host mem).buf
    (by rw [List.length_append, hlength]; omega) (by rw [HOSTLEN] at hbuf; omega)
  rw [cloak_append (md5.length_digest s) (md5.length_digest t)] at hput
  unfold hostcryptMd5
  dsimp only
  rw [hraw]
  obtain ⟨rest, hrest⟩ := hput.bytes
  refine ⟨⟨rest, ?_⟩, ?_⟩
  · rw [hrest]
    simp
  · constructor
    · intro hinside
      exact hput.inside.symm.trans hinside.buf
    · intro hsize
      refine ⟨hput.inside.trans hsize, ?_, h.addr⟩
      dsimp only
      rw [List.length_append, hlength, List.length_drop, List.length_append, length_hexDigits,
        hlength]
      rfl

/-- The last `n` labels of a name. -/
def lastLabels (n : ℕ) (host : Bytes) : List Bytes :=
  (host.splitOn dot).drop ((host.splitOn dot).length - n)

/-- The last two chunks of the cloak that the function returns. -/
def secondHalf (md5 : Md5) (host : Bytes) (mem : Md5Arrays) : Option (List Bytes) :=
  (cString (hostcryptMd5 md5 host mem).buf).map fun r => (r.splitOn dot).drop 2

theorem length_half {digest : Bytes} (h : digest.length = LENGTH) : (half digest).length = 27 := by
  have h1 : (base32Chunk (digest.take 8)).length = 13 :=
    length_base32Chunk (by rw [List.length_take, h]; decide)
  have h2 : (base32Chunk (digest.drop 8)).length = 13 :=
    length_base32Chunk (by rw [List.length_drop, h]; decide)
  simp [half, h1, h2]

theorem isText_half (digest : Bytes) : IsText (half digest) := by
  intro h
  simp only [half, List.mem_append, List.mem_singleton] at h
  obtain (h | h) | h := h
  · exact (ne_of_mem_base32Chunk h).1 rfl
  · exact absurd h (by decide)
  · exact (ne_of_mem_base32Chunk h).1 rfl

theorem splitOn_half (digest : Bytes) :
    (half digest).splitOn dot = [base32Chunk (digest.take 8), base32Chunk (digest.drop 8)] := by
  have hchunk : ∀ src, (base32Chunk src).splitOn dot = [base32Chunk src] :=
    fun src => List.splitOn_eq_singleton fun h => (ne_of_mem_base32Chunk h).2 rfl
  rw [half, List.append_assoc, List.singleton_append, List.splitOn_append_cons_self, hchunk,
    hchunk]
  rfl

theorem cString_cloak {d e : Bytes} (rest : Bytes) :
    cString (half d ++ [dot] ++ half e ++ 0 :: rest) = some (half d ++ [dot] ++ half e) := by
  refine cString_eq_some.2 ⟨?_, rest, rfl⟩
  intro h
  rw [List.mem_append, List.mem_append, List.mem_singleton] at h
  obtain (h | h) | h := h
  · exact isText_half d h
  · exact absurd h (by decide)
  · exact isText_half e h

/-- The second half is the one of the digest of the text that a name is hashed as. -/
theorem secondHalf_name (md5 : Md5) {host : Bytes} {mem : Md5Arrays} (hmem : mem.Inside)
    (hhost : IsText host) (hname : addressOf host = none) :
    secondHalf md5 host mem = some
      ((half (md5.digest (domainOf (hexDigits (md5.digest host)) host))).splitOn dot) := by
  obtain ⟨hhashed, hlength⟩ := hashHost_name md5 hmem hhost hname
  obtain ⟨⟨rest, hbuf⟩, -⟩ := hostcryptMd5_of_hashed hhashed (by omega)
  rw [secondHalf, hbuf, cString_cloak, List.append_assoc, List.singleton_append, Option.map_some,
    List.splitOn_append_cons_self, splitOn_half]
  rfl

theorem splitOn_half_inj {d e : Bytes} (hd : d.length = LENGTH) (he : e.length = LENGTH) :
    (half d).splitOn dot = (half e).splitOn dot ↔ d = e := by
  rw [splitOn_half, splitOn_half, List.cons.injEq, List.cons.injEq,
    base32Chunk_inj (by rw [List.length_take, List.length_take, hd, he]),
    base32Chunk_inj (by rw [List.length_drop, List.length_drop, hd, he])]
  constructor
  · rintro ⟨htake, hdrop, -⟩
    rw [← List.take_append_drop 8 d, htake, hdrop, List.take_append_drop]
  · rintro rfl
    exact ⟨rfl, rfl, rfl⟩

/-- Of a name with several labels, what is behind the last dot is hashed. -/
theorem domainOf_eq {host : Bytes} (h : 2 < (host.splitOn dot).length) (seed : Bytes) :
    [domainOf seed host] = lastLabels 1 host ∧ domainOf seed host <:+ host := by
  cases hs : strrchr dot host with
  | none =>
    rw [List.splitOn_eq_singleton (strrchr_eq_none.1 hs), List.length_singleton] at h
    omega
  | some s =>
    obtain ⟨pre, post, rfl, hpost, rfl⟩ := exists_of_strrchr hs
    have hsplit : (pre ++ dot :: post).splitOn dot = pre.splitOn dot ++ [post] := by
      rw [List.splitOn_append_cons_self, List.splitOn_eq_singleton hpost]
    cases pre with
    | nil =>
      rw [hsplit] at h
      simp at h
    | cons c pre =>
      have hdomain : domainOf seed (c :: pre ++ dot :: post) = post := by
        unfold domainOf
        rw [hs]
        simp
      constructor
      · rw [hdomain, lastLabels, hsplit, List.length_append, List.length_singleton,
          Nat.add_sub_cancel, List.drop_left' rfl]
      · rw [hdomain]
        exact ⟨c :: pre ++ [dot], by simp⟩

theorem lastLabels_one_of_two {a b : Bytes} (ha : 2 < (a.splitOn dot).length)
    (hb : 2 < (b.splitOn dot).length) (h : lastLabels 2 a = lastLabels 2 b) :
    lastLabels 1 a = lastLabels 1 b := by
  have hdrop : ∀ host : Bytes, 2 < (host.splitOn dot).length →
      lastLabels 1 host = (lastLabels 2 host).drop 1 := by
    intro host hhost
    rw [lastLabels, lastLabels, List.drop_drop]
    congr 1
    omega
  rw [hdrop a ha, hdrop b hb, h]

/-- The second halves of two names tell their last labels, and no more. -/
theorem secondHalf_eq_iff (md5 : Md5) {a b : Bytes} {mem mem' : Md5Arrays} (ha : IsText a)
    (hb : IsText b) (hmem : mem.Inside) (hmem' : mem'.Inside) (hnamea : addressOf a = none)
    (hnameb : addressOf b = none) (hlabelsa : 2 < (a.splitOn dot).length)
    (hlabelsb : 2 < (b.splitOn dot).length)
    (hinj : Set.InjOn md5.digest {t | t <:+ a ∨ t <:+ b}) :
    secondHalf md5 a mem = secondHalf md5 b mem' ↔ lastLabels 1 a = lastLabels 1 b := by
  obtain ⟨hdomaina, hsuffixa⟩ := domainOf_eq hlabelsa (hexDigits (md5.digest a))
  obtain ⟨hdomainb, hsuffixb⟩ := domainOf_eq hlabelsb (hexDigits (md5.digest b))
  rw [secondHalf_name md5 hmem ha hnamea, secondHalf_name md5 hmem' hb hnameb,
    Option.some.injEq, splitOn_half_inj (md5.length_digest _) (md5.length_digest _),
    hinj.eq_iff (Or.inl hsuffixa) (Or.inr hsuffixb), ← hdomaina, ← hdomainb,
    List.singleton_inj]

/-- The text that a name is hashed as fits into `buf`, or the whole name stands behind a digest. -/
theorem length_domainOf_le_iff {seed host : Bytes} (hseed : seed.length = 32)
    (hlength : host.length ≤ HOSTLEN) :
    (domainOf seed host).length ≤ HOSTLEN ↔ dot ∈ host.tail ∨ host.length ≤ 30 := by
  unfold domainOf
  split
  · rename_i s hs
    obtain ⟨pre, post, rfl, -, hpre⟩ := exists_of_strrchr hs
    obtain ⟨c, pre, rfl⟩ := List.exists_cons_of_length_eq_add_one hpre
    refine iff_of_true ?_ (Or.inl (by simp))
    rw [List.length_drop]
    omega
  · rename_i hs
    have htail : dot ∉ host.tail := by
      intro htail
      obtain ⟨c, rest, rfl⟩ : ∃ c rest, host = c :: rest :=
        List.exists_cons_of_ne_nil fun h => by simp [h] at htail
      cases hrest : strrchr dot rest with
      | none => exact strrchr_eq_none.1 hrest htail
      | some i => exact hs i (by simp [strrchr, hrest])
    simp only [htail, false_or, List.length_append, List.length_cons, hseed, HOSTLEN]
    omega

/-- The result is short enough; it is `buf` that may have been overrun before. -/
theorem hostcryptMd5_inside_iff (md5 : Md5) {host s t : Bytes} {mem : Md5Arrays}
    (hhashed : Hashed md5 s t (hashHost md5 host mem))
    (hbuf : HOSTLEN + 1 ≤ (hashHost md5 host mem).buf.length) :
    ((hostcryptMd5 md5 host mem).Inside ∧
        ∃ r, cString (hostcryptMd5 md5 host mem).buf = some r ∧ r.length ≤ HOSTLEN) ↔
      (hashHost md5 host mem).buf.length = HOSTLEN + 1 := by
  obtain ⟨⟨rest, hrest⟩, hinside⟩ := hostcryptMd5_of_hashed hhashed hbuf
  rw [hinside, and_iff_left]
  refine ⟨_, by rw [hrest]; exact cString_cloak rest, ?_⟩
  simp [length_half (md5.length_digest _), HOSTLEN]

/-- The place where a name is cut is too far to the right, and `buf` is too small for a digest and
a long name. -/
theorem hostcryptMd5_iff (md5 : Md5) :
    (∀ (a b : Bytes) (mem mem' : Md5Arrays), IsText a → IsText b → mem.Inside → mem'.Inside →
      addressOf a = none → addressOf b = none → 2 < (a.splitOn dot).length →
      2 < (b.splitOn dot).length → Set.InjOn md5.digest {t | t <:+ a ∨ t <:+ b} →
      ((secondHalf md5 a mem = secondHalf md5 b mem' ↔ lastLabels 2 a = lastLabels 2 b) ↔
        (lastLabels 1 a = lastLabels 1 b → lastLabels 2 a = lastLabels 2 b))) ∧
    ∀ (host : Bytes) (mem : Md5Arrays), IsText host → host.length ≤ HOSTLEN → mem.Inside →
      (((hostcryptMd5 md5 host mem).Inside ∧
          ∃ r, cString (hostcryptMd5 md5 host mem).buf = some r ∧ r.length ≤ HOSTLEN) ↔
        (addressOf host).isSome ∨ dot ∈ host.tail ∨ host.length ≤ 30) := by
  constructor
  · intro a b mem mem' ha hb hmem hmem' hnamea hnameb hlabelsa hlabelsb hinj
    have hlast := lastLabels_one_of_two hlabelsa hlabelsb
    rw [secondHalf_eq_iff md5 ha hb hmem hmem' hnamea hnameb hlabelsa hlabelsb hinj]
    exact ⟨fun h => h.1, fun h => ⟨h, hlast⟩⟩
  · intro host mem hhost hlength hmem
    cases haddress : addressOf host with
    | some address =>
      obtain ⟨⟨s, t, hhashed⟩, hbuf⟩ := hashHost_address md5 hmem haddress
      rw [hostcryptMd5_inside_iff md5 hhashed (by rw [hbuf, hmem.buf]), hbuf, hmem.buf]
      simp
    | none =>
      obtain ⟨hhashed, hbuf⟩ := hashHost_name md5 hmem hhost haddress
      have hseed : (hexDigits (md5.digest host)).length = 32 := by
        rw [length_hexDigits, md5.length_digest]
        rfl
      rw [hostcryptMd5_inside_iff md5 hhashed (by omega), hbuf]
      simp only [Option.isSome_none, Bool.false_eq_true, false_or,
        ← length_domainOf_le_iff hseed hlength]
      omega

/-- The digests of `a.b.c`, `a.d.c` and `c`; other texts are cut or padded. -/
def threeDigests (data : Bytes) : Bytes :=
  if data = bytes "a.b.c" then (strBaseDecode .base16 (bytes "553f764f7b436175c0387e22b4a19213")).1
  else if data = bytes "a.d.c" then
    (strBaseDecode .base16 (bytes "a1e09d46146a0ec60cf14f2f41a88875")).1
  else if data = bytes "c" then (strBaseDecode .base16 (bytes "4a8a08f09d37b73795649038408b5f33")).1
  else strncpy LENGTH data

theorem length_threeDigests (data : Bytes) : (threeDigests data).length = LENGTH := by
  unfold threeDigests
  split
  · decide +kernel
  · split
    · decide +kernel
    · split
      · decide +kernel
      · exact length_strncpy LENGTH data

/-- Arrays of zeros. -/
def zeroArrays : Md5Arrays :=
  ⟨List.replicate 64 0, List.replicate 65 0, List.replicate 16 0⟩

theorem hostcryptMd5_iff_three :
    (secondHalf ⟨threeDigests, length_threeDigests⟩ (bytes "a.b.c") zeroArrays =
        secondHalf ⟨threeDigests, length_threeDigests⟩ (bytes "a.d.c") zeroArrays ↔
      lastLabels 2 (bytes "a.b.c") = lastLabels 2 (bytes "a.d.c")) ↔
    (lastLabels 1 (bytes "a.b.c") = lastLabels 1 (bytes "a.d.c") →
      lastLabels 2 (bytes "a.b.c") = lastLabels 2 (bytes "a.d.c")) := by
  have hinside : zeroArrays.Inside := ⟨rfl, rfl, rfl⟩
  have hinj : ∀ s ∈ (bytes "a.b.c").tails ++ (bytes "a.d.c").tails,
      ∀ t ∈ (bytes "a.b.c").tails ++ (bytes "a.d.c").tails,
        threeDigests s = threeDigests t → s = t := by
    decide +kernel
  refine (hostcryptMd5_iff ⟨threeDigests, length_threeDigests⟩).1 _ _ zeroArrays zeroArrays
    (by decide) (by decide) hinside hinside (by decide) (by decide) (by decide) (by decide) ?_
  intro s hs t ht
  refine hinj s ?_ t ?_ <;> simpa [List.mem_tails]

/-- `a.b.c` and `a.d.c` are grouped together, and 31 characters without a dot are too many. -/
theorem hostcryptMd5_fails :
    (secondHalf ⟨threeDigests, length_threeDigests⟩ (bytes "a.b.c") zeroArrays =
        secondHalf ⟨threeDigests, length_threeDigests⟩ (bytes "a.d.c") zeroArrays ∧
      lastLabels 2 (bytes "a.b.c") ≠ lastLabels 2 (bytes "a.d.c")) ∧
    ¬ (hostcryptMd5 ⟨threeDigests, length_threeDigests⟩ (List.replicate 31 97)
      zeroArrays).Inside := by
  refine ⟨⟨by decide +kernel, by decide⟩, ?_⟩
  intro h
  have hbuf := h.buf
  revert hbuf
  decide +kernel

end Ithildin
