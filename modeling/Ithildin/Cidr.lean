import Ithildin.Address
import Ithildin.Lib.Bits

/-!
# Address masks

What `ipmatch` makes of a mask with a number of significant bits.

* `maskText`: an address and a number of bits as they are written;
* `Covers`: the text of an address names one whose first bits are those of another address;
* `masked_bitmask_eq_iff`: equal under the bitmask is equal in the first bits;
* `ipmatch_covers_iff`: `ipmatch` takes what the mask covers exactly if cutting the address at
  `IPADDR_MAXLEN` bytes does not matter;
* `ipmatch_mono`: a mask with fewer bits takes no less, with 0 standing for all of them.
-/

namespace Ithildin

/-- An address and a number of bits. -/
def maskText (addr : Bytes) (bits : ℕ) : Bytes := addr ++ slash :: itoa bits

/-- The text `addr` names an address of the family of `str` with the same first bits. -/
def Covers (addr : Bytes) (bits : ℕ) (str : Bytes) : Prop :=
  ∃ family a b, getAddressType addr = some family ∧ inetPton family addr = some a ∧
    inetPton family str = some b ∧ (Bits.ofBytes a).take bits = (Bits.ofBytes b).take bits

/-! ### The bitmask -/

/-- A byte with so many ones in front. -/
def frontOnes (c : ℕ) : UInt8 := if c = 0 then 0 else 255 <<< (8 - c).toUInt8

theorem testBit_frontOnes {c i : ℕ} (hc : c ≤ 8) (hi : i < 8) :
    (frontOnes c).toNat.testBit i = decide (8 - c ≤ i) := by
  have hall : ∀ c ≤ 8, ∀ i < 8, (frontOnes c).toNat.testBit i = decide (8 - c ≤ i) := by
    decide
  exact hall c hc i hi

theorem testBit_byte {x : UInt8} {i : ℕ} (hi : 8 ≤ i) : x.toNat.testBit i = false := by
  refine Nat.testBit_lt_two_pow (lt_of_lt_of_le x.toNat_lt ?_)
  exact Nat.pow_le_pow_right (by decide) hi

/-- Bytes are equal behind such a byte if they are in as many bits. -/
theorem and_frontOnes_eq_iff {x y : UInt8} {c : ℕ} (hc : c ≤ 8) :
    x &&& frontOnes c = y &&& frontOnes c ↔
      (Bits.ofNat 8 x.toNat).take c = (Bits.ofNat 8 y.toNat).take c := by
  rw [Bits.take_ofNat hc, Bits.take_ofNat hc, Bits.ofNat_eq_iff, ← UInt8.toNat_inj,
    UInt8.toNat_and, UInt8.toNat_and]
  constructor
  · intro h i hi
    have hbit := congrArg (fun n => n.testBit (8 - c + i)) h
    simp only [Nat.testBit_and, testBit_frontOnes hc (show 8 - c + i < 8 by omega)] at hbit
    rw [Nat.testBit_shiftRight, Nat.testBit_shiftRight]
    simpa using hbit
  · intro h
    refine Nat.eq_of_testBit_eq fun i => ?_
    rw [Nat.testBit_and, Nat.testBit_and]
    by_cases hi : i < 8
    · rw [testBit_frontOnes hc hi]
      by_cases hfront : 8 - c ≤ i
      · have hbit := h (i - (8 - c)) (by omega)
        rw [Nat.testBit_shiftRight, Nat.testBit_shiftRight] at hbit
        have hindex : 8 - c + (i - (8 - c)) = i := by omega
        rw [hindex] at hbit
        rw [hbit]
      · simp [hfront]
    · rw [@testBit_byte x i (by omega), @testBit_byte y i (by omega)]

/-- A bitmask of so many bytes with so many ones in front. -/
def prefixMask : ℕ → ℕ → Bytes
  | 0, _ => []
  | len + 1, bits => frontOnes (min 8 bits) :: prefixMask len (bits - 8)

theorem getElem?_prefixMask (len bits k : ℕ) :
    (prefixMask len bits)[k]? =
      if k < len then some (frontOnes (min 8 (bits - 8 * k))) else none := by
  induction len generalizing bits k with
  | zero => simp [prefixMask]
  | succ len ih =>
    cases k with
    | zero => simp [prefixMask]
    | succ k =>
      have hbits : bits - 8 - 8 * k = bits - 8 * (k + 1) := by omega
      simp [prefixMask, ih, hbits]

/-- The loop sets the bits of the bytes it comes by, and leaves the bytes behind as they are. -/
theorem getElem?_maskLoop {n i : ℕ} {bm : Bytes} (hn : i ≤ n) (k : ℕ) :
    (maskLoop n i bm)[k]? =
      if 8 * k < i ∧ k < bm.length then some (frontOnes (min 8 (i - 8 * k))) else bm[k]? := by
  induction n generalizing i bm with
  | zero =>
    obtain rfl : i = 0 := by omega
    simp [maskLoop]
  | succ n ih =>
    unfold maskLoop
    by_cases hzero : i = 0
    · subst hzero
      simp
    rw [if_neg hzero]
    by_cases hfull : i % 8 = 0
    · rw [if_pos hfull, ih (by omega), List.length_set, List.getElem?_set]
      by_cases hk : (i - 1) / 8 = k
      · have hbits : min 8 (i - 8 * k) = 8 := by omega
        rw [if_neg (by omega), if_pos hk, hbits]
        by_cases hlen : k < bm.length
        · rw [if_pos (by omega), if_pos ⟨by omega, hlen⟩]
          rfl
        · rw [if_neg (by omega), if_neg (by omega)]
          simp [hlen]
      · rw [if_neg hk]
        by_cases hlt : 8 * k < i - 8 ∧ k < bm.length
        · have hbits : min 8 (i - 8 - 8 * k) = min 8 (i - 8 * k) := by omega
          rw [if_pos hlt, if_pos (by omega), hbits]
        · rw [if_neg hlt, if_neg (by omega)]
    · rw [if_neg hfull, ih (by omega), List.length_set, List.getElem?_set]
      by_cases hk : (i - 1) / 8 = k
      · have hbits : min 8 (i - 8 * k) = i % 8 := by omega
        rw [if_neg (by omega), if_pos hk, hbits]
        by_cases hlen : k < bm.length
        · rw [if_pos (by omega), if_pos ⟨by omega, hlen⟩, frontOnes, if_neg hfull]
        · rw [if_neg (by omega), if_neg (by omega)]
          simp [hlen]
      · rw [if_neg hk]
        by_cases hlt : 8 * k < i - i % 8 ∧ k < bm.length
        · have hbits : min 8 (i - i % 8 - 8 * k) = min 8 (i - 8 * k) := by omega
          rw [if_pos hlt, if_pos (by omega), hbits]
        · rw [if_neg hlt, if_neg (by omega)]

theorem maskLoop_eq (len bits : ℕ) :
    maskLoop bits bits (List.replicate len 0) = prefixMask len bits := by
  apply List.ext_getElem?
  intro k
  rw [getElem?_maskLoop le_rfl, getElem?_prefixMask, List.length_replicate,
    List.getElem?_replicate]
  by_cases hk : k < len
  · by_cases hbits : 8 * k < bits
    · simp [hk, hbits]
    · have hnone : min 8 (bits - 8 * k) = 0 := by omega
      simp [hk, hbits, hnone, frontOnes]
  · simp [hk]

/-- Addresses are equal under a bitmask if they are in its first bits. -/
theorem masked_prefixMask_eq_iff {a b : Bytes} {len bits : ℕ} (h : a.length = b.length)
    (hlen : a.length ≤ len) :
    masked a (prefixMask len bits) = masked b (prefixMask len bits) ↔
      (Bits.ofBytes a).take bits = (Bits.ofBytes b).take bits := by
  induction a generalizing b len bits with
  | nil =>
    obtain rfl : b = [] := List.length_eq_zero_iff.1 h.symm
    exact iff_of_true rfl rfl
  | cons x a ih =>
    cases b with
    | nil => simp at h
    | cons y b =>
      cases len with
      | zero => simp at hlen
      | succ len =>
        have hrest := @ih b len (bits - 8) (by simpa using h)
          (by simpa using hlen)
        have hhead := and_frontOnes_eq_iff (x := x) (y := y) (Nat.min_le_left 8 bits)
        have hmin : ∀ z : UInt8,
            (Bits.ofNat 8 z.toNat).take (min 8 bits) = (Bits.ofNat 8 z.toNat).take bits := by
          intro z
          rw [Nat.min_comm, ← List.take_take, List.take_of_length_le (i := 8) (by simp)]
        rw [hmin, hmin] at hhead
        simp only [masked, prefixMask, List.zipWith_cons_cons, List.cons.injEq] at hrest ⊢
        rw [hhead, hrest, Bits.ofBytes_cons, Bits.ofBytes_cons, List.take_append,
          List.take_append, Bits.length_ofNat, Bits.length_ofNat]
        constructor
        · rintro ⟨hx, ha⟩
          rw [hx, ha]
        · intro hall
          exact List.append_inj hall (by simp)

/-! ### The text of a mask -/

theorem slash_not_mem_inetPton4 {s b : Bytes} (h : inetPton4 s = some b) : slash ∉ s := by
  have hdecimal : ∀ n ≤ 255, slash ∉ decimal n := fun n hn => not_mem_decimal hn (by decide)
  obtain ⟨x, y, z, w, rfl, -, hx, hy, hz, hw⟩ := dotted_of_inetPton4 h
  have hdot : slash ≠ dot := by decide
  simp [dotted, hdecimal x hx, hdecimal y hy, hdecimal z hz, hdecimal w hw, hdot]

/-- The loop reads no `'/'`; what it takes for a dotted address is the text from `curtok` on. -/
theorem slash_not_mem_pton6Loop {curtok out src : Bytes} {digits val : ℕ} {gap : Option ℕ}
    {r : Bytes × Option ℕ} (hsuffix : src <:+ curtok)
    (h : pton6Loop curtok digits val out gap src = some r) : slash ∉ src := by
  induction src generalizing curtok out digits val gap with
  | nil => exact List.not_mem_nil
  | cons ch src ih =>
    unfold pton6Loop at h
    have htail : src <:+ curtok := (List.suffix_cons ch src).trans hsuffix
    intro hmem
    split at h
    · rename_i d hd
      split at h
      · cases h
      · rcases List.mem_cons.1 hmem with hslash | hmem
        · have hnone : digitOf 16 slash = none := by decide
          rw [← hslash, hnone] at hd
          cases hd
        · exact ih htail h hmem
    · split at h
      · rename_i hcolon
        have hrest : slash ∈ src := by
          rcases List.mem_cons.1 hmem with hslash | hmem
          · rw [hcolon] at hslash
            exact absurd hslash (by decide)
          · exact hmem
        split at h
        · split at h
          · cases h
          · exact ih List.suffix_rfl h hrest
        · split at h
          · cases h
          · exact ih List.suffix_rfl h hrest
      · split at h
        · obtain ⟨quad, hquad, -⟩ := Option.map_eq_some_iff.1 h
          exact slash_not_mem_inetPton4 hquad (hsuffix.subset hmem)
        · cases h

theorem slash_not_mem_inetPton6 {s b : Bytes} (h : inetPton6 s = some b) : slash ∉ s := by
  cases s with
  | nil => exact List.not_mem_nil
  | cons c rest =>
    simp only [inetPton6] at h
    split at h
    · cases h
    · obtain ⟨r, hr, -⟩ := Option.bind_eq_some_iff.1 h
      have hstart := slash_not_mem_pton6Loop List.suffix_rfl hr
      by_cases hc : c = colon
      · rw [if_pos hc] at hstart
        have hne : slash ≠ c := by
          rw [hc]
          decide
        simp [hne, hstart]
      · rwa [if_neg hc] at hstart

theorem slash_not_mem {family : Family} {s b : Bytes} (h : inetPton family s = some b) :
    slash ∉ s := by
  cases family with
  | inet => exact slash_not_mem_inetPton4 h
  | inet6 => exact slash_not_mem_inetPton6 h

theorem length_fillGap {r : Bytes × Option ℕ} {b : Bytes} (h : fillGap r = some b) :
    b.length = IPADDR_SIZE := by
  obtain ⟨out, gap⟩ := r
  cases gap with
  | none =>
    simp only [fillGap, Option.ite_none_right_eq_some, Option.some.injEq] at h
    obtain ⟨hlength, rfl⟩ := h
    exact hlength
  | some p =>
    simp only [fillGap, Option.ite_none_left_eq_some, Option.some.injEq] at h
    obtain ⟨hlength, rfl⟩ := h
    simp only [List.length_append, List.length_take, List.length_replicate, List.length_drop]
    omega

theorem length_inetPton {family : Family} {s b : Bytes} (h : inetPton family s = some b) :
    8 * b.length = family.width := by
  cases family with
  | inet =>
    obtain ⟨x, y, z, w, -, rfl, -⟩ := dotted_of_inetPton4 h
    rfl
  | inet6 =>
    have hlength : b.length = IPADDR_SIZE := by
      simp only [inetPton, inetPton6] at h
      split at h
      · cases h
      · split at h
        · cases h
        · obtain ⟨r, -, hr⟩ := Option.bind_eq_some_iff.1 h
          exact length_fillGap hr
    rw [hlength]
    rfl

theorem colon_not_mem_inetPton4 {s b : Bytes} (h : inetPton4 s = some b) : colon ∉ s := by
  have hdecimal : ∀ n ≤ 255, colon ∉ decimal n := fun n hn => not_mem_decimal hn (by decide)
  obtain ⟨x, y, z, w, rfl, -, hx, hy, hz, hw⟩ := dotted_of_inetPton4 h
  have hdot : colon ≠ dot := by decide
  simp [dotted, hdecimal x hx, hdecimal y hy, hdecimal z hz, hdecimal w hw, hdot]

/-- Every group but the last one, and every gap, takes a colon. -/
theorem colons_pton6Loop {curtok out src : Bytes} {digits val : ℕ} {gap : Option ℕ}
    {r : Bytes × Option ℕ} (h : pton6Loop curtok digits val out gap src = some r) :
    (r.2 = none → gap = none ∧ r.1.length ≤ out.length + 2 * src.count colon + 4) ∧
      (r.2.isSome = true → gap = none →
        1 ≤ src.count colon ∧ (digits ≠ 0 → 2 ≤ src.count colon)) := by
  induction src generalizing curtok out digits val gap with
  | nil =>
    unfold pton6Loop at h
    split at h
    · cases h
      refine ⟨fun hgap => ⟨hgap, by simp⟩, fun hsome hgap => ?_⟩
      rw [hgap] at hsome
      cases hsome
    · split at h
      · cases h
      · cases h
        refine ⟨fun hgap => ⟨hgap, by simp [group]⟩, fun hsome hgap => ?_⟩
        rw [hgap] at hsome
        cases hsome
  | cons ch src ih =>
    unfold pton6Loop at h
    split at h
    · rename_i d hd
      have hne : ch ≠ colon := by
        rintro rfl
        have hnone : digitOf 16 colon = none := by decide
        rw [hnone] at hd
        cases hd
      split at h
      · cases h
      · obtain ⟨hnone, hsome⟩ := ih h
        rw [List.count_cons_of_ne hne]
        refine ⟨hnone, fun hgap hinit => ?_⟩
        obtain ⟨-, htwo⟩ := hsome hgap hinit
        have := htwo (by omega)
        omega
    · split at h
      · rename_i hcolon
        subst hcolon
        rw [List.count_cons_self]
        split at h
        · rename_i hdigits
          split at h
          · cases h
          · obtain ⟨hnone, -⟩ := ih h
            refine ⟨fun hgap => absurd (hnone hgap).1 (by simp), fun _ _ => ?_⟩
            omega
        · split at h
          · cases h
          · obtain ⟨hnone, hsome⟩ := ih h
            refine ⟨fun hgap => ?_, fun hgap hinit => ?_⟩
            · obtain ⟨hinit, hlength⟩ := hnone hgap
              refine ⟨hinit, ?_⟩
              simp only [List.length_append, group, List.length_cons, List.length_nil] at hlength
              omega
            · have := (hsome hgap hinit).1
              omega
      · split at h
        · obtain ⟨quad, hquad, rfl⟩ := Option.map_eq_some_iff.1 h
          obtain ⟨x, y, z, w, -, rfl, -⟩ := dotted_of_inetPton4 hquad
          refine ⟨fun hgap => ⟨hgap, by simp⟩, fun hsome hgap => ?_⟩
          rw [hgap] at hsome
          cases hsome
        · cases h

/-- An IPv6 address has two colons. -/
theorem one_lt_count_colon {s b : Bytes} (h : inetPton6 s = some b) : 1 < s.count colon := by
  cases s with
  | nil => cases h
  | cons c rest =>
    simp only [inetPton6] at h
    by_cases hc : c = colon
    · subst hc
      split at h
      · cases h
      · rename_i hhead
        have hrest : rest.head? = some colon := by simpa using hhead
        cases rest with
        | nil => cases hrest
        | cons d rest =>
          obtain rfl : d = colon := by simpa using hrest
          rw [List.count_cons_self, List.count_cons_self]
          omega
    · simp only [hc, false_and, if_false] at h
      obtain ⟨r, hr, hfill⟩ := Option.bind_eq_some_iff.1 h
      obtain ⟨hnone, -⟩ := colons_pton6Loop hr
      obtain ⟨out, gap⟩ := r
      cases gap with
      | none =>
        have hlength := (hnone rfl).2
        simp only [fillGap, Option.ite_none_right_eq_some] at hfill
        have hsize := hfill.1
        simp only [IPADDR_SIZE] at hsize
        simp only [List.length_nil] at hlength
        omega
      | some p =>
        -- a gap is a colon behind another one, as the first byte is a digit
        rw [List.count_cons_of_ne hc]
        unfold pton6Loop at hr
        split at hr
        · have hdigits := (colons_pton6Loop hr).2 rfl rfl
          have := hdigits.2 (by decide)
          omega
        · rw [if_neg hc] at hr
          split at hr
          · obtain ⟨quad, -, heq⟩ := Option.map_eq_some_iff.1 hr
            cases heq
          · cases hr

/-- The family of an address is the one that reads it. -/
theorem getAddressType_eq {family : Family} {s b : Bytes} (h : inetPton family s = some b) :
    getAddressType s = some family := by
  unfold getAddressType
  cases family with
  | inet =>
    have h' : inetPton4 s = some b := h
    rw [List.count_eq_zero.2 (colon_not_mem_inetPton4 h), if_neg (by decide), h']
    rfl
  | inet6 =>
    have h' : inetPton6 s = some b := h
    rw [if_pos (one_lt_count_colon h), h']
    rfl

/-- The number of bits that count when so many are given. -/
def countedBits (family : Family) (bits : ℕ) : ℕ :=
  if bits = 0 ∨ family.width < bits then family.width else bits

theorem maskBits_itoa {family : Family} {bits : ℕ} (h : bits < 2147483648) :
    maskBits family (itoa bits) = countedBits family bits := by
  have hprint : itoa bits = printLong bits := by
    rw [printLong, if_neg (by omega), Int.toNat_natCast]
  have hread := strConvInt_printLong (v := bits) (by omega) (by omega) 0
  unfold maskBits countedBits
  rw [hprint, hread]
  dsimp only
  by_cases hall : bits = 0 ∨ family.width < bits
  · rw [if_pos hall, if_pos (by omega)]
  · rw [if_neg hall, if_neg (by omega), Int.toNat_natCast]

theorem countedBits_mono (family : Family) {m n : ℕ} (hm : 0 < m) (hmn : m ≤ n) :
    countedBits family m ≤ countedBits family n := by
  unfold countedBits
  split <;> split <;> omega

/-- What a mask takes. -/
theorem ipmatch_maskText {addr str : Bytes} {bits : ℕ} (h : slash ∉ addr)
    (hbits : bits < 2147483648) :
    ipmatch (maskText addr bits) str = true ↔
      ∃ family a b, getAddressType (addr.take IPADDR_MAXLEN) = some family ∧
        inetPton family (addr.take IPADDR_MAXLEN) = some a ∧ inetPton family str = some b ∧
        (Bits.ofBytes a).take (countedBits family bits) =
          (Bits.ofBytes b).take (countedBits family bits) := by
  unfold ipmatch
  rw [maskText, takeWhile_ne_append h, behindByte_append h]
  dsimp only
  cases hfamily : getAddressType (addr.take IPADDR_MAXLEN) with
  | none => simp
  | some family =>
    dsimp only
    cases ha : inetPton family (addr.take IPADDR_MAXLEN) with
    | none => simp [ha]
    | some a =>
      cases hb : inetPton family str with
      | none => simp [ha, hb]
      | some b =>
        have hlength := (length_inetPton ha).trans (length_inetPton hb).symm
        have hsize : a.length ≤ IPADDR_SIZE := by
          have hwidth := length_inetPton ha
          cases family <;> simp only [Family.width, IPADDR_SIZE] at hwidth ⊢ <;> omega
        simp only [bitmask, maskBits_itoa hbits, maskLoop_eq, beq_iff_eq,
          masked_prefixMask_eq_iff (show a.length = b.length by omega) hsize]
        simp [ha, hb]

/-- Cut text still names an address of the same family, or none. -/
theorem family_of_take {family f : Family} {addr a a' : Bytes} (ha : inetPton family addr = some a)
    (ha' : inetPton f (addr.take IPADDR_MAXLEN) = some a') : f = family := by
  by_cases hshort : addr.length ≤ IPADDR_MAXLEN
  · rw [List.take_of_length_le hshort] at ha'
    exact Option.some.inj ((getAddressType_eq ha').symm.trans (getAddressType_eq ha))
  · -- such text is too long for an IPv4 address
    cases f with
    | inet =>
      have hlength := length_le_of_inetPton4 ha'
      simp only [List.length_take, IPADDR_MAXLEN] at hlength hshort
      omega
    | inet6 =>
      cases family with
      | inet =>
        have hlength := length_le_of_inetPton4 ha
        simp only [IPADDR_MAXLEN] at hshort
        omega
      | inet6 => rfl

/-- The text in front of the `'/'` is read up to its 39th byte. -/
theorem ipmatch_iff_covers {family : Family} {addr a str : Bytes} {bits : ℕ}
    (ha : inetPton family addr = some a) (hpos : 1 ≤ bits) (hle : bits ≤ family.width) :
    ipmatch (maskText addr bits) str = true ↔ Covers (addr.take IPADDR_MAXLEN) bits str := by
  have hwidth : family.width ≤ 128 := by cases family <;> decide
  rw [ipmatch_maskText (slash_not_mem ha) (by omega)]
  unfold Covers
  refine exists_congr fun family' => exists_congr fun a' => exists_congr fun b => ?_
  refine and_congr_right fun hfamily => and_congr_right fun ha' => and_congr_right fun _ => ?_
  have hcounted : countedBits family' bits = bits := by
    rw [family_of_take ha ha', countedBits, if_neg (by omega)]
  rw [hcounted]

theorem covers_iff {family family' : Family} {addr a str b : Bytes} {bits : ℕ}
    (ha : inetPton family addr = some a) (hb : inetPton family' str = some b) :
    Covers addr bits str ↔
      family = family' ∧ (Bits.ofBytes a).take bits = (Bits.ofBytes b).take bits := by
  constructor
  · rintro ⟨f, a', b', hf, ha', hb', heq⟩
    obtain rfl : family = f := Option.some.inj ((getAddressType_eq ha).symm.trans hf)
    obtain rfl : family = family' :=
      Option.some.inj ((getAddressType_eq hb').symm.trans (getAddressType_eq hb))
    obtain rfl : a = a' := Option.some.inj (ha.symm.trans ha')
    obtain rfl : b = b' := Option.some.inj (hb.symm.trans hb')
    exact ⟨rfl, heq⟩
  · rintro ⟨rfl, heq⟩
    exact ⟨family, a, b, getAddressType_eq ha, ha, hb, heq⟩

/-- A mask takes the addresses of its family with its first bits exactly if its address covers as
much when it is cut. -/
theorem ipmatch_covers_iff {family family' : Family} {addr a str b : Bytes} (bits : ℕ)
    (ha : inetPton family addr = some a) (hb : inetPton family' str = some b) (hpos : 1 ≤ bits)
    (hle : bits ≤ family.width) :
    (ipmatch (maskText addr bits) str = true ↔
      family = family' ∧ (Bits.ofBytes a).take bits = (Bits.ofBytes b).take bits) ↔
    (Covers (addr.take IPADDR_MAXLEN) bits str ↔ Covers addr bits str) := by
  rw [ipmatch_iff_covers ha hpos hle, covers_iff ha hb]

/-- What the texts of some addresses and masks are read as. The last byte of the long one is beyond
the 39th byte of its text. -/
theorem texts_net :
    inetPton .inet (bytes "10.0.0.0") = some [10, 0, 0, 0] ∧
      inetPton .inet (bytes "10.127.0.1") = some [10, 127, 0, 1] ∧
      ipmatch (maskText (bytes "10.0.0.0") 9) (bytes "10.127.0.1") = true ∧
      ipmatch (maskText (bytes "10.0.0.0") 0) (bytes "10.127.0.1") = false ∧
      inetPton .inet6 (bytes "0000:0000:0000:0000:0000:ffff:10.20.30.40") =
        some [0, 0, 0, 0, 0, 0, 0, 0, 0, 0, 255, 255, 10, 20, 30, 40] ∧
      inetPton .inet6 (bytes "::ffff:10.20.30.40") =
        some [0, 0, 0, 0, 0, 0, 0, 0, 0, 0, 255, 255, 10, 20, 30, 40] ∧
      ipmatch (maskText (bytes "0000:0000:0000:0000:0000:ffff:10.20.30.40") 128)
        (bytes "::ffff:10.20.30.40") = false := by
  decide +kernel

theorem ipmatch_covers_net :
    ipmatch (maskText (bytes "10.0.0.0") 9) (bytes "10.127.0.1") = true ↔
      Family.inet = Family.inet ∧ (Bits.ofBytes [10, 0, 0, 0]).take 9 =
        (Bits.ofBytes [10, 127, 0, 1]).take 9 :=
  (@ipmatch_covers_iff .inet .inet _ [10, 0, 0, 0] _ [10, 127, 0, 1] 9 texts_net.1
    texts_net.2.1 (by decide) (by decide)).2 (by
      rw [List.take_of_length_le (by decide)])

theorem ipmatch_covers_fails :
    ¬ ∀ (family family' : Family) (addr a str b : Bytes) (bits : ℕ),
      inetPton family addr = some a → inetPton family' str = some b → 1 ≤ bits →
      bits ≤ family.width →
      (ipmatch (maskText addr bits) str = true ↔
        family = family' ∧ (Bits.ofBytes a).take bits = (Bits.ofBytes b).take bits) := by
  intro h
  obtain ⟨-, -, -, -, haddr, hstr, hfalse⟩ := texts_net
  have hlong := h .inet6 .inet6 (bytes "0000:0000:0000:0000:0000:ffff:10.20.30.40")
    [0, 0, 0, 0, 0, 0, 0, 0, 0, 0, 255, 255, 10, 20, 30, 40] (bytes "::ffff:10.20.30.40")
    [0, 0, 0, 0, 0, 0, 0, 0, 0, 0, 255, 255, 10, 20, 30, 40] 128 haddr hstr
    (by decide) (by decide)
  have hmatch := hlong.2 ⟨rfl, rfl⟩
  rw [hfalse] at hmatch
  cases hmatch

/-! ### Masks with fewer bits -/

/-- A mask with fewer bits takes no less; a mask with 0 bits is one with all of them. -/
theorem ipmatch_mono (family : Family) (addr a str : Bytes) (m n : ℕ)
    (ha : inetPton family addr = some a) (hmn : m ≤ n) (hn : n ≤ family.width) :
    (m ≠ 0 → ipmatch (maskText addr n) str = true → ipmatch (maskText addr m) str = true) ∧
      ipmatch (maskText addr 0) str = ipmatch (maskText addr family.width) str := by
  have hslash := slash_not_mem ha
  have hwidth : family.width ≤ 128 := by cases family <;> decide
  refine ⟨fun hm h => ?_, ?_⟩
  · rw [ipmatch_maskText hslash (by omega)] at h ⊢
    obtain ⟨f, a', b, hf, ha', hb, heq⟩ := h
    refine ⟨f, a', b, hf, ha', hb, ?_⟩
    have hle := countedBits_mono f (Nat.pos_of_ne_zero hm) hmn
    have htake := congrArg (List.take (countedBits f m)) heq
    rwa [List.take_take, List.take_take, Nat.min_eq_left hle] at htake
  · rw [Bool.eq_iff_iff, ipmatch_maskText hslash (by omega), ipmatch_maskText hslash (by omega)]
    refine exists_congr fun f => exists_congr fun a' => exists_congr fun b => ?_
    refine and_congr_right fun _ => and_congr_right fun ha' => ?_
    have hcounted : countedBits f 0 = countedBits f family.width := by
      rw [family_of_take ha ha']
      simp [countedBits]
    rw [hcounted]

theorem ipmatch_mono_net :
    ipmatch (maskText (bytes "10.0.0.0") 9) (bytes "10.127.0.1") = true ∧
      ipmatch (maskText (bytes "10.0.0.0") 8) (bytes "10.127.0.1") = true := by
  obtain ⟨haddr, -, hnine, -⟩ := texts_net
  exact ⟨hnine, (ipmatch_mono .inet (bytes "10.0.0.0") [10, 0, 0, 0] (bytes "10.127.0.1") 8 9
    haddr (by decide) (by decide)).1 (by decide) hnine⟩

/-- With 0 bits, all of them count. -/
theorem ipmatch_mono_fails :
    ¬ ∀ (family : Family) (addr a str : Bytes) (m n : ℕ), inetPton family addr = some a →
      m ≤ n → n ≤ family.width →
      ipmatch (maskText addr n) str = true → ipmatch (maskText addr m) str = true := by
  intro h
  obtain ⟨haddr, -, hnine, hnone, -⟩ := texts_net
  have hzero := h .inet (bytes "10.0.0.0") [10, 0, 0, 0] (bytes "10.127.0.1") 0 9 haddr
    (by decide) (by decide) hnine
  rw [hnone] at hzero
  cases hzero

end Ithildin
