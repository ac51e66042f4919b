import Ithildin.Client.Hostcrypt
import Ithildin.Printf

/-!
# Hostname encryption in the style of AustHex

* `inetNtop6`: the library's `inet_ntop` for IPv6;
* `austhexHash`, `hostcryptAusthex`: `austhex_hash` and `hostcrypt_austhex`;
* `hostcryptAusthex_iff`: when the result fits.
-/

namespace Ithildin

open Buffer

/-- `AUSTHEX_SEED` and the bounds of the hash values. -/
def AUSTHEX_SEED : ℕ := 150
def AUSTHEX_HASH_BIG : ℕ := 40000
def AUSTHEX_HASH_SMALL : ℕ := 300

/-- A `char` is signed; here it is added to an `unsigned int`. -/
def charToUInt (c : UInt8) : ℕ := if c < 128 then c.toNat else 4294967040 + c.toNat

/-- `austhex_hash`. -/
def austhexHash (str : Bytes) : ℕ :=
  str.foldl (fun ret c => (AUSTHEX_SEED * ret + charToUInt c) % 4294967296) 0

/-! ### Addresses as text -/

/-- The longer one of two runs of zeros, the first one if they are alike. -/
def longerRun (cur best : Option (ℕ × ℕ)) : Option (ℕ × ℕ) :=
  match cur, best with
  | none, best => best
  | some c, none => some c
  | some c, some b => if b.2 < c.2 then some c else some b

/-- The first group and the length of the longest run of zeros. -/
def bestRun : ℕ → Option (ℕ × ℕ) → Option (ℕ × ℕ) → List ℕ → Option (ℕ × ℕ)
  | _, cur, best, [] => (longerRun cur best).filter fun run => 2 ≤ run.2
  | i, cur, best, w :: words =>
      if w = 0 then
        match cur with
        | none => bestRun (i + 1) (some (i, 1)) best words
        | some c => bestRun (i + 1) (some (c.1, c.2 + 1)) best words
      else bestRun (i + 1) none (longerRun cur best) words

/-- The text that `inet_ntop(PF_INET, ...)` makes. -/
def inetNtop4 : Bytes → Bytes
  | [a, b, c, d] => dotted a.toNat b.toNat c.toNat d.toNat
  | _ => []

/-- The groups as text, from the one with index `i` on. -/
def ntopLoop (addr : Bytes) (best : Option (ℕ × ℕ)) : ℕ → List ℕ → Bytes
  | _, [] => []
  | i, w :: words =>
      match best.filter fun run => run.1 ≤ i ∧ i < run.1 + run.2 with
      | some run => (if i = run.1 then [colon] else []) ++ ntopLoop addr best (i + 1) words
      | none =>
          (if i = 0 then [] else [colon]) ++
            -- an IPv4 address in the last two groups ends the loop
            if i = 6 ∧
                (best = some (0, 6) ∨ best = some (0, 5) ∧ (addr.drop 10).take 2 = [255, 255])
            then inetNtop4 (addr.drop 12)
            else numeral 16 w ++ ntopLoop addr best (i + 1) words

/-- The 16-bit words of an address. -/
def wordsOf : Bytes → List ℕ
  | a :: b :: addr => (256 * a.toNat + b.toNat) :: wordsOf addr
  | _ => []

/-- The text that `inet_ntop(PF_INET6, ...)` makes. -/
def inetNtop6 (addr : Bytes) : Bytes :=
  let best := bestRun 0 none none (wordsOf addr)
  ntopLoop addr best 0 (wordsOf addr) ++
    if ∃ run ∈ best, run.1 + run.2 = 8 then [colon] else []

/-! ### The function -/

/-- `buf`, `quads` and `i6a`. -/
structure AusthexArrays where
  buf : Bytes
  quads : Bytes
  i6a : Bytes
  deriving DecidableEq

/-- No array was overrun. -/
structure AusthexArrays.Inside (mem : AusthexArrays) : Prop where
  buf : mem.buf.length = HOSTLEN + 1
  quads : mem.quads.length = 16
  i6a : mem.i6a.length = IPADDR_SIZE

/-- The host from its first dot on, or all of it behind a dot. -/
def hostTail (host : Bytes) : Bytes :=
  if dot ∈ host then host.dropWhile (· != dot) else dot :: host

/-- `strcpy(quads[phash++], s)` for each piece. -/
def quadLoop : List Bytes → ℕ → Bytes → Bytes
  | [], _, quads => quads
  | s :: pieces, phash, quads => quadLoop pieces (phash + 1) (storeAt (4 * phash) (s ++ [0]) quads)

/-- The string `quads[i]`. -/
def quad (quads : Bytes) (i : ℕ) : Bytes := strAt (quads.drop (4 * i))

/-- `hostcrypt_austhex`. -/
def hostcryptAusthex (pre suffix host : Bytes) (mem : AusthexArrays) : AusthexArrays :=
  let hash := austhexHash host % AUSTHEX_HASH_BIG
  match addressOf host with
  | none =>
      let text := pre ++ numeral 10 hash ++ hostTail host ++ suffix
      { mem with buf := storeAt 0 (text ++ [0]) mem.buf }
  | some (.inet6, bytes) =>
      let i6a := storeAt 8 (List.replicate 8 0) (storeAt 0 bytes mem.i6a)
      let text := inetNtop6 i6a
      let buf := if text.length < HOSTLEN + 1 then storeAt 0 (text ++ [0]) mem.buf else mem.buf
      { mem with i6a := i6a, buf := storeAt (strAt buf).length (numeral 10 hash ++ [0]) buf }
  | some (.inet, _) =>
      -- `strsep` puts a NUL in the place of each dot
      let buf := storeAt 0 (host.map (fun c => if c = dot then 0 else c) ++ [0]) mem.buf
      let quads := quadLoop (host.splitOn dot) 0 mem.quads
      let phash := (austhexHash (quad quads 0) + austhexHash (quad quads 1) +
        austhexHash (quad quads 2)) % 4294967296 % AUSTHEX_HASH_SMALL
      let text := quad quads 0 ++ [dot] ++ quad quads 1 ++ [dot] ++ numeral 10 phash ++ [dot] ++
        numeral 10 hash
      { mem with quads := quads, buf := storeAt 0 (text ++ [0]) buf }

/-! ### Lengths of numbers and addresses -/

theorem isText_decimal {n : ℕ} (h : n ≤ 255) : IsText (decimal n) := not_mem_decimal h (by decide)

theorem isText_dotted {a b c d : ℕ} (ha : a ≤ 255) (hb : b ≤ 255) (hc : c ≤ 255) (hd : d ≤ 255) :
    IsText (dotted a b c d) := by
  have hdot : dot ≠ 0 := by decide
  simp only [dotted, isText_append, isText_cons]
  exact ⟨isText_decimal ha, hdot, isText_decimal hb, hdot, isText_decimal hc, hdot,
    isText_decimal hd⟩

theorem inetNtop4_text (addr : Bytes) :
    IsText (inetNtop4 addr) ∧ (inetNtop4 addr).length ≤ 15 := by
  have hbyte : ∀ c : UInt8, c.toNat ≤ 255 := fun c => Nat.le_of_lt_succ c.toNat_lt
  unfold inetNtop4
  split
  · exact ⟨isText_dotted (hbyte _) (hbyte _) (hbyte _) (hbyte _), length_dotted_le _ _ _ _⟩
  · exact ⟨by simp [IsText], by simp⟩

theorem wordsOf_lt : ∀ (addr : Bytes), ∀ w ∈ wordsOf addr, w < 65536
  | [], _, h => by simp [wordsOf] at h
  | [_], _, h => by simp [wordsOf] at h
  | a :: b :: addr, w, h => by
    have ha := a.toNat_lt
    have hb := b.toNat_lt
    rcases List.mem_cons.1 h with rfl | h
    · omega
    · exact wordsOf_lt addr w h

theorem length_wordsOf : ∀ addr : Bytes, (wordsOf addr).length = addr.length / 2
  | [] => rfl
  | [_] => by simp [wordsOf]
  | a :: b :: addr => by
    rw [wordsOf, List.length_cons, length_wordsOf addr]
    simp only [List.length_cons]
    omega

/-- A colon, or none. -/
theorem separator_text {p : Prop} [Decidable p] {s t : Bytes} (hs : s = [] ∨ s = [colon])
    (ht : t = [] ∨ t = [colon]) :
    IsText (if p then s else t) ∧ (if p then s else t).length ≤ 1 := by
  have hboth : ∀ r : Bytes, r = [] ∨ r = [colon] → IsText r ∧ r.length ≤ 1 := by
    rintro r (rfl | rfl)
    · exact ⟨by decide, by simp⟩
    · exact ⟨by decide, le_rfl⟩
  split
  · exact hboth s hs
  · exact hboth t ht

/-- A group takes five characters at most, and an IPv4 address sixteen. -/
theorem ntopLoop_text (addr : Bytes) (best : Option (ℕ × ℕ)) {words : List ℕ} (i : ℕ)
    (h : ∀ w ∈ words, w < 65536) :
    IsText (ntopLoop addr best i words) ∧
      (ntopLoop addr best i words).length ≤ 5 * words.length + 16 := by
  induction words generalizing i with
  | nil => exact ⟨by simp [ntopLoop, IsText], by simp [ntopLoop]⟩
  | cons w words ih =>
    obtain ⟨htext, hlength⟩ := ih (i + 1) fun w' hw' => h w' (List.mem_cons_of_mem _ hw')
    have hgroup : (numeral 16 w).length ≤ 4 :=
      length_numeral_le (by decide) (by decide) (h w List.mem_cons_self)
    have hgroup' : IsText (numeral 16 w) := isText_numeral (by decide) le_rfl
    obtain ⟨hquad, hquad'⟩ := inetNtop4_text (addr.drop 12)
    unfold ntopLoop
    split
    · rename_i run _
      obtain ⟨hsep, hsep'⟩ := @separator_text (i = run.1) _ _ _ (.inr rfl) (.inl rfl)
      rw [isText_append, List.length_append, List.length_cons]
      exact ⟨⟨hsep, htext⟩, by omega⟩
    · obtain ⟨hsep, hsep'⟩ := @separator_text (i = 0) _ _ _ (.inl rfl) (.inr rfl)
      rw [isText_append, List.length_append, List.length_cons]
      refine ⟨⟨hsep, ?_⟩, ?_⟩
      · split
        · exact hquad
        · exact isText_append.2 ⟨hgroup', htext⟩
      · refine (Nat.add_le_add_right hsep' _).trans ?_
        split
        · omega
        · rw [List.length_append]
          omega

theorem inetNtop6_text {addr : Bytes} (h : addr.length = IPADDR_SIZE) :
    IsText (inetNtop6 addr) ∧ (inetNtop6 addr).length ≤ 57 := by
  obtain ⟨htext, hlength⟩ := ntopLoop_text addr (bestRun 0 none none (wordsOf addr)) 0
    (wordsOf_lt addr)
  rw [length_wordsOf, h, IPADDR_SIZE] at hlength
  unfold inetNtop6
  dsimp only
  obtain ⟨hlast, hlast'⟩ := @separator_text
    (∃ run ∈ bestRun 0 none none (wordsOf addr), run.1 + run.2 = 8) _ _ _ (.inr rfl) (.inl rfl)
  rw [isText_append, List.length_append]
  exact ⟨⟨htext, hlast⟩, by omega⟩

/-! ### The four parts of a dotted quad -/

theorem strAt_of_append {s r mem : Bytes} (hs : IsText s) (h : mem = s ++ 0 :: r) :
    strAt mem = s := by
  rw [h, strAt_append hs]

theorem take_storeAt {pos n : ℕ} (h : n ≤ pos) {mem : Bytes} (hmem : pos ≤ mem.length) (s : Bytes) :
    (storeAt pos s mem).take n = mem.take n := by
  have hlength : n ≤ (mem.take pos).length := by
    rw [List.length_take]
    omega
  rw [storeAt, List.append_assoc, List.take_append_of_le_length hlength, List.take_take,
    Nat.min_eq_left h]

/-- Pieces of up to three characters fit, and they stay as they were stored. -/
theorem quadLoop_spec {pieces : List Bytes} {quads : Bytes} (phash : ℕ)
    (hpieces : ∀ s ∈ pieces, IsText s ∧ s.length ≤ 3)
    (hroom : 4 * (phash + pieces.length) ≤ quads.length) :
    (quadLoop pieces phash quads).length = quads.length ∧
      (quadLoop pieces phash quads).take (4 * phash) = quads.take (4 * phash) ∧
      ∀ j (hj : j < pieces.length), quad (quadLoop pieces phash quads) (phash + j) = pieces[j] := by
  induction pieces generalizing phash quads with
  | nil => exact ⟨rfl, rfl, by simp⟩
  | cons s pieces ih =>
    obtain ⟨hs, hlen⟩ := hpieces s List.mem_cons_self
    rw [List.length_cons] at hroom
    have hstored : (storeAt (4 * phash) (s ++ [0]) quads).length = quads.length := by
      apply length_storeAt
      rw [List.length_append, List.length_singleton]
      omega
    obtain ⟨hlength, htake, hrows⟩ := @ih (storeAt (4 * phash) (s ++ [0]) quads) (phash + 1)
      (fun t ht => hpieces t (List.mem_cons_of_mem _ ht)) (by omega)
    rw [quadLoop]
    refine ⟨hlength.trans hstored, ?_, ?_⟩
    · have hfront := congrArg (List.take (4 * phash)) htake
      rw [List.take_take, List.take_take, Nat.min_eq_left (by omega),
        take_storeAt le_rfl (by omega)] at hfront
      exact hfront
    · rintro (_ | j) hj
      · -- this row lies in front of what the other pieces are stored at
        have hrow := congrArg (List.drop (4 * phash)) htake
        have hplace : (storeAt (4 * phash) (s ++ [0]) quads).drop (4 * phash) =
            s ++ 0 :: quads.drop (4 * phash + (s ++ [0]).length) := by
          have htext : (quads.take (4 * phash)).length = 4 * phash := by
            rw [List.length_take]
            omega
          rw [storeAt, List.append_assoc, List.drop_left' htext, List.append_assoc]
          rfl
        rw [List.drop_take, List.drop_take, hplace, show 4 * (phash + 1) - 4 * phash = 4 by omega,
          List.take_append, List.take_of_length_le (show s.length ≤ 4 by omega)] at hrow
        obtain ⟨n, hn⟩ : ∃ n, 4 - s.length = n + 1 := ⟨3 - s.length, by omega⟩
        rw [hn, List.take_succ_cons] at hrow
        have hwhole := List.take_append_drop 4
          ((quadLoop pieces (phash + 1) (storeAt (4 * phash) (s ++ [0]) quads)).drop (4 * phash))
        rw [hrow, List.append_assoc, List.cons_append] at hwhole
        exact strAt_of_append hs hwhole.symm
      · have hnext := hrows j (by simpa using hj)
        rw [show phash + (j + 1) = phash + 1 + j by omega]
        exact hnext

/-! ### What the function returns -/

/-- A buffer that was not overrun holds a host of up to `HOSTLEN` characters. -/
structure HoldsHost (buf : Bytes) : Prop where
  inside : buf.length = HOSTLEN + 1
  host : ∃ r, cString buf = some r ∧ r.length ≤ HOSTLEN

theorem cString_storeAt {s : Bytes} (h : IsText s) (mem : Bytes) :
    cString (storeAt 0 (s ++ [0]) mem) = some s := by
  rw [storeAt_zero, List.append_assoc]
  exact cString_eq_some.2 ⟨h, _, rfl⟩

/-- A text printed into `buf` fits exactly if it is no longer than a host may be. -/
theorem holdsHost_storeAt {buf text : Bytes} (hbuf : buf.length = HOSTLEN + 1)
    (htext : IsText text) : HoldsHost (storeAt 0 (text ++ [0]) buf) ↔ text.length ≤ HOSTLEN := by
  have hlength := length_storeAt_eq_max (Nat.zero_le buf.length) (text ++ [0])
  rw [hbuf, Nat.zero_add, List.length_append, List.length_singleton] at hlength
  constructor
  · intro h
    have hinside := h.inside
    omega
  · intro h
    exact ⟨by omega, text, cString_storeAt htext buf, h⟩

theorem hash_lt (n : ℕ) : n % AUSTHEX_HASH_BIG < 10 ^ 5 :=
  (Nat.mod_lt n (by decide)).trans (by decide)

theorem phash_lt (n : ℕ) : n % AUSTHEX_HASH_SMALL < 10 ^ 3 :=
  (Nat.mod_lt n (by decide)).trans (by decide)

theorem length_numeral_hash (n : ℕ) : (numeral 10 (n % AUSTHEX_HASH_BIG)).length ≤ 5 :=
  length_numeral_le (by decide) (by decide) (hash_lt n)

theorem isText_numeral_ten (n : ℕ) : IsText (numeral 10 n) :=
  isText_numeral (by decide) (by decide)

theorem isText_hostTail {host : Bytes} (h : IsText host) : IsText (hostTail host) := by
  unfold hostTail
  split
  · exact fun hzero => h ((List.dropWhile_sublist _).mem hzero)
  · exact isText_cons.2 ⟨by decide, h⟩

section

variable (pre suffix : Bytes) {host : Bytes} {mem : AusthexArrays}

/-- The text of the upper half of an IPv6 address and the hash always fit. -/
theorem hostcryptAusthex_inet6 (hmem : mem.Inside) {b : Bytes}
    (haddress : addressOf host = some (.inet6, b)) :
    HoldsHost (hostcryptAusthex pre suffix host mem).buf ∧
      (hostcryptAusthex pre suffix host mem).Inside := by
  have hb := length_of_inetPton6 (addressOf_eq_some haddress)
  have hi6a : (storeAt 8 (List.replicate 8 0) (storeAt 0 b mem.i6a)).length = IPADDR_SIZE := by
    have haddr := hmem.i6a
    have hstored : (storeAt 0 b mem.i6a).length = IPADDR_SIZE := by
      rw [length_storeAt (by omega), haddr]
    rw [length_storeAt, hstored]
    rw [hstored]
    decide
  obtain ⟨htext, hlength⟩ := inetNtop6_text hi6a
  have hdigits := length_numeral_hash (austhexHash host)
  have hdigits' := isText_numeral_ten (austhexHash host % AUSTHEX_HASH_BIG)
  unfold hostcryptAusthex
  rw [haddress]
  dsimp only
  generalize storeAt 8 (List.replicate 8 0) (storeAt 0 b mem.i6a) = i6a at *
  generalize numeral 10 (austhexHash host % AUSTHEX_HASH_BIG) = digits at *
  rw [if_pos (by rw [HOSTLEN]; omega), strAt_storeAt htext]
  -- the hash is printed over the NUL of the address
  have hbuf : storeAt (inetNtop6 i6a).length (digits ++ [0])
      (storeAt 0 (inetNtop6 i6a ++ [0]) mem.buf) = inetNtop6 i6a ++ digits ++
        0 :: ([0] ++ mem.buf.drop ((inetNtop6 i6a).length + 1)).drop (digits.length + 1) := by
    rw [storeAt_zero, List.append_assoc, storeAt_append]
    simp
  have hinside : (storeAt (inetNtop6 i6a).length (digits ++ [0])
      (storeAt 0 (inetNtop6 i6a ++ [0]) mem.buf)).length = HOSTLEN + 1 := by
    have hfirst : (storeAt 0 (inetNtop6 i6a ++ [0]) mem.buf).length = HOSTLEN + 1 := by
      rw [length_storeAt, hmem.buf]
      rw [List.length_append, List.length_singleton, hmem.buf, HOSTLEN]
      omega
    rw [length_storeAt, hfirst]
    rw [List.length_append, List.length_singleton, hfirst, HOSTLEN]
    omega
  refine ⟨⟨hinside, inetNtop6 i6a ++ digits, ?_, ?_⟩, ⟨hinside, hmem.quads, hi6a⟩⟩
  · rw [hbuf]
    exact cString_eq_some.2 ⟨isText_append.2 ⟨htext, hdigits'⟩, _, rfl⟩
  · rw [List.length_append, HOSTLEN]
    omega

/-- So do two parts of an IPv4 address and two hashes. -/
theorem hostcryptAusthex_inet (hmem : mem.Inside) {b : Bytes}
    (haddress : addressOf host = some (.inet, b)) :
    HoldsHost (hostcryptAusthex pre suffix host mem).buf ∧
      (hostcryptAusthex pre suffix host mem).Inside := by
  have hb := addressOf_eq_some haddress
  have hshort := length_le_of_inetPton4 hb
  obtain ⟨x, y, z, w, hpieces, hx, hy, hz, hw⟩ : ∃ x y z w : Bytes,
      host.splitOn dot = [x, y, z, w] ∧ (IsText x ∧ x.length ≤ 3) ∧ (IsText y ∧ y.length ≤ 3) ∧
        (IsText z ∧ z.length ≤ 3) ∧ (IsText w ∧ w.length ≤ 3) := by
    have hpiece : ∀ {p : Bytes} {n : ℕ}, octet p = some n → IsText p ∧ p.length ≤ 3 := by
      intro p n hp
      rw [← decimal_of_octet hp]
      exact ⟨isText_decimal (octet_le hp).1, length_decimal_le n⟩
    change inetPton4 host = some b at hb
    unfold inetPton4 at hb
    split at hb
    · rename_i hparts
      have hoctets := forall₂_of_mapM hparts
      generalize host.splitOn dot = parts at hoctets
      rcases hoctets with _ | ⟨hx, _ | ⟨hy, _ | ⟨hz, _ | ⟨hw, _ | _⟩⟩⟩⟩
      exact ⟨_, _, _, _, rfl, hpiece hx, hpiece hy, hpiece hz, hpiece hw⟩
    · cases hb
  obtain ⟨hlength, -, hrows⟩ := @quadLoop_spec [x, y, z, w] mem.quads 0
    (by simp [hx, hy, hz, hw]) (by rw [hmem.quads]; exact le_rfl)
  have hrow0 : quad (quadLoop [x, y, z, w] 0 mem.quads) 0 = x := hrows 0 (by simp)
  have hrow1 : quad (quadLoop [x, y, z, w] 0 mem.quads) 1 = y := hrows 1 (by simp)
  have hcopy : (storeAt 0 (host.map (fun c => if c = dot then 0 else c) ++ [0]) mem.buf).length =
      HOSTLEN + 1 := by
    rw [length_storeAt, hmem.buf]
    rw [List.length_append, List.length_map, List.length_singleton, hmem.buf, HOSTLEN]
    omega
  unfold hostcryptAusthex
  rw [haddress]
  dsimp only
  rw [hpieces, hrow0, hrow1]
  generalize (austhexHash x + austhexHash y +
    austhexHash (quad (quadLoop [x, y, z, w] 0 mem.quads) 2)) % 4294967296 = sum
  have htext : IsText (x ++ [dot] ++ y ++ [dot] ++ numeral 10 (sum % AUSTHEX_HASH_SMALL) ++ [dot] ++
      numeral 10 (austhexHash host % AUSTHEX_HASH_BIG)) := by
    have hdot : IsText [dot] := by decide
    simp only [isText_append]
    exact ⟨⟨⟨⟨⟨⟨hx.1, hdot⟩, hy.1⟩, hdot⟩, isText_numeral_ten _⟩, hdot⟩, isText_numeral_ten _⟩
  have hholds := (holdsHost_storeAt hcopy htext).2 (by
    have hdigits := length_numeral_hash (austhexHash host)
    have hdigits' : (numeral 10 (sum % AUSTHEX_HASH_SMALL)).length ≤ 3 :=
      length_numeral_le (by decide) (by decide) (phash_lt sum)
    simp only [List.length_append, List.length_singleton, HOSTLEN]
    omega)
  exact ⟨hholds, ⟨hholds.inside, hlength.trans hmem.quads, hmem.i6a⟩⟩

/-- The result of a name fits exactly if its parts do; of an address it always does. -/
theorem hostcryptAusthex_iff (hpre : IsText pre) (hsuffix : IsText suffix) (hhost : IsText host)
    (hmem : mem.Inside) :
    ((hostcryptAusthex pre suffix host mem).Inside ∧
        ∃ r, cString (hostcryptAusthex pre suffix host mem).buf = some r ∧ r.length ≤ HOSTLEN) ↔
      (addressOf host).isSome ∨
        pre.length + (numeral 10 (austhexHash host % AUSTHEX_HASH_BIG)).length +
          (hostTail host).length + suffix.length ≤ HOSTLEN := by
  cases haddress : addressOf host with
  | some address =>
    have hall : HoldsHost (hostcryptAusthex pre suffix host mem).buf ∧
        (hostcryptAusthex pre suffix host mem).Inside := by
      obtain ⟨family, b⟩ := address
      cases family with
      | inet => exact hostcryptAusthex_inet pre suffix hmem haddress
      | inet6 => exact hostcryptAusthex_inet6 pre suffix hmem haddress
    exact iff_of_true ⟨hall.2, hall.1.host⟩ (Or.inl rfl)
  | none =>
    have hresult : hostcryptAusthex pre suffix host mem =
        { mem with buf := storeAt 0 (pre ++ numeral 10 (austhexHash host % AUSTHEX_HASH_BIG) ++
          hostTail host ++ suffix ++ [0]) mem.buf } := by
      unfold hostcryptAusthex
      rw [haddress]
    have htext : IsText (pre ++ numeral 10 (austhexHash host % AUSTHEX_HASH_BIG) ++
        hostTail host ++ suffix) := by
      simp only [isText_append]
      exact ⟨⟨⟨hpre, isText_numeral_ten _⟩, isText_hostTail hhost⟩, hsuffix⟩
    have hholds := holdsHost_storeAt hmem.buf htext
    rw [List.length_append, List.length_append, List.length_append] at hholds
    simp only [Option.isSome_none, Bool.false_eq_true, false_or, ← hholds, hresult]
    constructor
    · rintro ⟨hinside, hr⟩
      exact ⟨hinside.buf, hr⟩
    · rintro ⟨hinside, hr⟩
      exact ⟨⟨hinside, hmem.quads, hmem.i6a⟩, hr⟩

end

theorem hostcryptAusthex_iff_example :
    ((hostcryptAusthex (bytes "net-") [] (bytes "a.example.org")
          ⟨List.replicate 64 0, List.replicate 16 0, List.replicate 16 0⟩).Inside ∧
        ∃ r, cString (hostcryptAusthex (bytes "net-") [] (bytes "a.example.org")
          ⟨List.replicate 64 0, List.replicate 16 0, List.replicate 16 0⟩).buf = some r ∧
            r.length ≤ HOSTLEN) ↔
      (addressOf (bytes "a.example.org")).isSome ∨
        (bytes "net-").length +
          (numeral 10 (austhexHash (bytes "a.example.org") % AUSTHEX_HASH_BIG)).length +
            (hostTail (bytes "a.example.org")).length + ([] : Bytes).length ≤ HOSTLEN :=
  hostcryptAusthex_iff _ _ (by decide) (by decide) (by decide) ⟨rfl, rfl, rfl⟩

/-- A host of 63 characters without a dot is too long for the hash in front of it. -/
theorem hostcryptAusthex_fails :
    ¬ ∀ (pre suffix host : Bytes) (mem : AusthexArrays), IsText pre → IsText suffix →
      IsText host → host.length ≤ HOSTLEN → mem.Inside →
        (hostcryptAusthex pre suffix host mem).Inside ∧
          ∃ r, cString (hostcryptAusthex pre suffix host mem).buf = some r ∧
            r.length ≤ HOSTLEN := by
  intro h
  have hbuf := (h [] [] (List.replicate 63 97)
    ⟨List.replicate 64 0, List.replicate 16 0, List.replicate 16 0⟩ (by decide) (by decide)
    (by decide) (by decide) ⟨rfl, rfl, rfl⟩).1.buf
  have hlength : (hostcryptAusthex [] [] (List.replicate 63 97)
      ⟨List.replicate 64 0, List.replicate 16 0, List.replicate 16 0⟩).buf.length ≠
        HOSTLEN + 1 := by
    decide +kernel
  exact hlength hbuf

end Ithildin
