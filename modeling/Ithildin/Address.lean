import Ithildin.Hostmatch
import Ithildin.Numbers

/-!
# Addresses

* `inetPton4`, `inetPton6`: the library's `inet_pton`;
* `getAddressType`: `get_address_type` of `socket.c`, with IPv6 compiled in;
* `ipmatch`: `ipmatch` of `string.c`.
-/

namespace Ithildin

/-- `IPADDR_SIZE`. -/
def IPADDR_SIZE : ℕ := 16

/-- `IPADDR_MAXLEN`. -/
def IPADDR_MAXLEN : ℕ := 39

/-- The byte `'/'`. -/
def slash : UInt8 := 47

/-- A decimal number of up to three digits, at most 255 and without leading zeros. -/
def octet : Bytes → Option ℕ
  | [a] => if isDigit a then some (a.toNat - 48) else none
  | [a, b] =>
      if isDigit a ∧ isDigit b ∧ a ≠ 48 then some (10 * (a.toNat - 48) + (b.toNat - 48)) else none
  | [a, b, c] =>
      let n := 100 * (a.toNat - 48) + 10 * (b.toNat - 48) + (c.toNat - 48)
      if isDigit a ∧ isDigit b ∧ isDigit c ∧ a ≠ 48 ∧ n ≤ 255 then some n else none
  | _ => none

/-- `inet_pton(PF_INET, ...)`: four numbers with dots between them. -/
def inetPton4 (src : Bytes) : Option Bytes :=
  match (src.splitOn dot).mapM octet with
  | some [a, b, c, d] => some [a.toUInt8, b.toUInt8, c.toUInt8, d.toUInt8]
  | _ => none

/-- The two bytes of a group. -/
def group (val : ℕ) : Bytes := [(val / 256).toUInt8, val.toUInt8]

/-- The loop of `inet_pton(PF_INET6, ...)`: the groups read so far, where `"::"` was, and the value
of the last group if it has digits. -/
def pton6Loop (curtok : Bytes) (digits val : ℕ) (out : Bytes) (gap : Option ℕ) :
    Bytes → Option (Bytes × Option ℕ)
  | [] =>
      if digits = 0 then some (out, gap)
      else if IPADDR_SIZE < out.length + 2 then none
      else some (out ++ group val, gap)
  | ch :: src =>
      match digitOf 16 ch with
      | some d =>
          if digits = 4 then none else pton6Loop curtok (digits + 1) (16 * val + d) out gap src
      | none =>
          if ch = colon then
            if digits = 0 then
              if gap.isSome then none else pton6Loop src 0 0 out (some out.length) src
            else if src = [] ∨ IPADDR_SIZE < out.length + 2 then none
            else pton6Loop src 0 0 (out ++ group val) gap src
          else if ch = dot ∧ out.length + 4 ≤ IPADDR_SIZE then
            (inetPton4 curtok).map fun quad => (out ++ quad, gap)
          else none

/-- The zeros that `"::"` stands for. -/
def fillGap : Bytes × Option ℕ → Option Bytes
  | (out, none) => if out.length = IPADDR_SIZE then some out else none
  | (out, some p) =>
      if IPADDR_SIZE ≤ out.length then none
      else some (out.take p ++ List.replicate (IPADDR_SIZE - out.length) 0 ++ out.drop p)

/-- `inet_pton(PF_INET6, ...)`; a colon in front must be one of two. -/
def inetPton6 (src : Bytes) : Option Bytes :=
  match src with
  | [] => none
  | c :: rest =>
      let start := if c = colon then rest else src
      if c = colon ∧ rest.head? ≠ some colon then none
      else (pton6Loop start 0 0 [] none start).bind fillGap

/-- `PF_INET` and `PF_INET6`. -/
inductive Family
  | inet
  | inet6
  deriving DecidableEq

/-- The width of an address in bits. -/
def Family.width : Family → ℕ
  | .inet => 32
  | .inet6 => 128

/-- `inet_pton`. -/
def inetPton : Family → Bytes → Option Bytes
  | .inet => inetPton4
  | .inet6 => inetPton6

/-- `get_address_type`: text with two colons is an IPv6 address or nothing. -/
def getAddressType (addr : Bytes) : Option Family :=
  if 1 < addr.count colon then (inetPton6 addr).map fun _ => .inet6
  else (inetPton4 addr).map fun _ => .inet

/-- The loop that sets the first `i` bits of `bitmask`, from the last one back. -/
def maskLoop : ℕ → ℕ → Bytes → Bytes
  | 0, _, bitmask => bitmask
  | n + 1, i, bitmask =>
      if i = 0 then bitmask
      else if i % 8 = 0 then maskLoop n (i - 8) (bitmask.set ((i - 1) / 8) 255)
      else maskLoop n (i - i % 8) (bitmask.set ((i - 1) / 8) (255 <<< (8 - i % 8).toUInt8))

/-- The bits that count, as the text behind the `'/'` says: all of them for a number that makes no
sense. -/
def maskBits (family : Family) (mask : Bytes) : ℕ :=
  let imask := strConvInt mask 0
  if imask ≤ 0 ∨ (family.width : ℤ) < imask then family.width else imask.toNat

/-- The bitmask: all ones without a `'/'`. -/
def bitmask (family : Family) : Option Bytes → Bytes
  | none => List.replicate IPADDR_SIZE 255
  | some mask =>
      maskLoop (maskBits family mask) (maskBits family mask) (List.replicate IPADDR_SIZE 0)

/-- The bytes of an address that count. -/
def masked (addr bits : Bytes) : Bytes := List.zipWith (· &&& ·) addr bits

/-- `ipmatch`. -/
def ipmatch (wild str : Bytes) : Bool :=
  let addr := (wild.takeWhile (· != slash)).take IPADDR_MAXLEN
  match getAddressType addr with
  | none => false
  | some family =>
      match inetPton family addr, inetPton family str with
      | some bwild, some bstr =>
          let bits := bitmask family (behindByte slash wild)
          masked bwild bits == masked bstr bits
      | _, _ => false

/-! ### Dotted addresses are written in one way -/

theorem isDigit_iff {c : UInt8} : isDigit c = true ↔ 48 ≤ c.toNat ∧ c.toNat ≤ 57 := by
  simp [isDigit, UInt8.le_iff_toNat_le]

theorem octet_le {p : Bytes} {n : ℕ} (h : octet p = some n) : n ≤ 255 ∧ p.length ≤ 3 := by
  match p with
  | [] => cases h
  | [a] =>
    simp only [octet, isDigit_iff, Option.ite_none_right_eq_some, Option.some.injEq] at h
    simp only [List.length_cons, List.length_nil]
    omega
  | [a, b] =>
    simp only [octet, isDigit_iff, Option.ite_none_right_eq_some, Option.some.injEq] at h
    simp only [List.length_cons, List.length_nil]
    omega
  | [a, b, c] =>
    simp only [octet, isDigit_iff, Option.ite_none_right_eq_some, Option.some.injEq] at h
    simp only [List.length_cons, List.length_nil]
    omega
  | _ :: _ :: _ :: _ :: _ => cases h

/-- The digits of a number of one, two or three digits. -/
def decimal (n : ℕ) : Bytes :=
  if n < 10 then [(48 + n).toUInt8]
  else if n < 100 then [(48 + n / 10).toUInt8, (48 + n % 10).toUInt8]
  else [(48 + n / 100).toUInt8, (48 + n / 10 % 10).toUInt8, (48 + n % 10).toUInt8]

theorem isDigit_of_mem_decimal {n : ℕ} (hn : n ≤ 255) {c : UInt8} (hc : c ∈ decimal n) :
    isDigit c = true := by
  have hdigit : ∀ d < 10, isDigit (48 + d).toUInt8 = true := by decide
  unfold decimal at hc
  split at hc
  · rename_i hone
    rw [List.mem_singleton.1 hc]
    exact hdigit n hone
  · split at hc
    · rcases List.mem_cons.1 hc with rfl | hc
      · exact hdigit _ (by omega)
      · rw [List.mem_singleton.1 hc]
        exact hdigit _ (by omega)
    · rcases List.mem_cons.1 hc with rfl | hc
      · exact hdigit _ (by omega)
      · rcases List.mem_cons.1 hc with rfl | hc
        · exact hdigit _ (by omega)
        · rw [List.mem_singleton.1 hc]
          exact hdigit _ (by omega)

theorem not_mem_decimal {n : ℕ} (hn : n ≤ 255) {c : UInt8} (hc : isDigit c = false) :
    c ∉ decimal n := by
  intro hmem
  rw [isDigit_of_mem_decimal hn hmem] at hc
  cases hc

theorem toUInt8_eq {c : UInt8} {n : ℕ} (h : c.toNat = n) : n.toUInt8 = c := by
  rw [← h]
  exact UInt8.ofNat_toNat

/-- An octet is the decimal form of its value. -/
theorem decimal_of_octet {p : Bytes} {n : ℕ} (h : octet p = some n) : decimal n = p := by
  have hne : ∀ a : UInt8, a ≠ 48 → a.toNat ≠ 48 := fun a ha hn => ha (UInt8.toNat_inj.1 hn)
  match p with
  | [] => cases h
  | [a] =>
    simp only [octet, isDigit_iff, Option.ite_none_right_eq_some, Option.some.injEq] at h
    obtain ⟨ha, rfl⟩ := h
    rw [decimal, if_pos (by omega), toUInt8_eq (c := a) (by omega)]
  | [a, b] =>
    simp only [octet, isDigit_iff, Option.ite_none_right_eq_some, Option.some.injEq] at h
    obtain ⟨⟨ha, hb, ha'⟩, rfl⟩ := h
    have := hne a ha'
    rw [decimal, if_neg (by omega), if_pos (by omega), toUInt8_eq (c := a) (by omega),
      toUInt8_eq (c := b) (by omega)]
  | [a, b, c] =>
    simp only [octet, isDigit_iff, Option.ite_none_right_eq_some, Option.some.injEq] at h
    obtain ⟨⟨ha, hb, hc, ha', -⟩, rfl⟩ := h
    have := hne a ha'
    rw [decimal, if_neg (by omega), if_neg (by omega), toUInt8_eq (c := a) (by omega),
      toUInt8_eq (c := b) (by omega), toUInt8_eq (c := c) (by omega)]
  | _ :: _ :: _ :: _ :: _ => cases h

/-- The text of four numbers with dots between them. -/
def dotted (a b c d : ℕ) : Bytes :=
  decimal a ++ dot :: (decimal b ++ dot :: (decimal c ++ dot :: decimal d))

theorem forall₂_of_mapM {α β : Type*} {f : α → Option β} {l : List α} {r : List β}
    (h : l.mapM f = some r) : List.Forall₂ (fun a b => f a = some b) l r := by
  induction l generalizing r with
  | nil =>
    obtain rfl : [] = r := by simpa using h
    exact .nil
  | cons a l ih =>
    simp only [List.mapM_cons, Option.bind_eq_bind, Option.bind_eq_some_iff, Option.pure_def,
      Option.some.injEq] at h
    obtain ⟨b, hb, bs, hbs, rfl⟩ := h
    exact .cons hb (ih hbs)

/-- An address that `inet_pton(PF_INET, ...)` reads is the dotted form of its bytes. -/
theorem dotted_of_inetPton4 {s b : Bytes} (h : inetPton4 s = some b) :
    ∃ x y z w, s = dotted x y z w ∧ b = [x.toUInt8, y.toUInt8, z.toUInt8, w.toUInt8] ∧
      x ≤ 255 ∧ y ≤ 255 ∧ z ≤ 255 ∧ w ≤ 255 := by
  unfold inetPton4 at h
  split at h
  · rename_i x y z w hparts
    have hjoin : [dot].intercalate (s.splitOn dot) = s := List.intercalate_splitOn dot
    have hoctets := forall₂_of_mapM hparts
    generalize s.splitOn dot = parts at hoctets hjoin
    rcases hoctets with _ | ⟨hx, _ | ⟨hy, _ | ⟨hz, _ | ⟨hw, _ | _⟩⟩⟩⟩
    refine ⟨x, y, z, w, ?_, (Option.some.inj h).symm, (octet_le hx).1, (octet_le hy).1,
      (octet_le hz).1, (octet_le hw).1⟩
    rw [dotted, decimal_of_octet hx, decimal_of_octet hy, decimal_of_octet hz, decimal_of_octet hw,
      ← hjoin]
    simp [List.intercalate]
  · cases h

theorem toUInt8_inj {x y : ℕ} (hx : x ≤ 255) (hy : y ≤ 255) (h : x.toUInt8 = y.toUInt8) :
    x = y := by
  have hnat := congrArg UInt8.toNat h
  simp only [Nat.toUInt8_eq, UInt8.toNat_ofNat'] at hnat
  omega

/-- Two texts of one address are the same text. -/
theorem inetPton4_injective {s t b : Bytes} (hs : inetPton4 s = some b)
    (ht : inetPton4 t = some b) : s = t := by
  obtain ⟨x, y, z, w, rfl, rfl, hx, hy, hz, hw⟩ := dotted_of_inetPton4 hs
  obtain ⟨x', y', z', w', rfl, hb, hx', hy', hz', hw'⟩ := dotted_of_inetPton4 ht
  simp only [List.cons.injEq, and_true] at hb
  rw [toUInt8_inj hx hx' hb.1, toUInt8_inj hy hy' hb.2.1, toUInt8_inj hz hz' hb.2.2.1,
    toUInt8_inj hw hw' hb.2.2.2]

theorem length_decimal_le (n : ℕ) : (decimal n).length ≤ 3 := by
  unfold decimal
  split
  · simp
  · split <;> simp

theorem length_dotted_le (x y z w : ℕ) : (dotted x y z w).length ≤ 15 := by
  have hx := length_decimal_le x
  have hy := length_decimal_le y
  have hz := length_decimal_le z
  have hw := length_decimal_le w
  simp only [dotted, List.length_append, List.length_cons]
  omega

theorem length_le_of_inetPton4 {s b : Bytes} (h : inetPton4 s = some b) : s.length ≤ 15 := by
  obtain ⟨x, y, z, w, rfl, -⟩ := dotted_of_inetPton4 h
  exact length_dotted_le x y z w

theorem length_of_inetPton4 {s b : Bytes} (h : inetPton4 s = some b) : b.length = 4 := by
  obtain ⟨x, y, z, w, -, rfl, -⟩ := dotted_of_inetPton4 h
  rfl

theorem length_of_inetPton6 {s b : Bytes} (h : inetPton6 s = some b) : b.length = IPADDR_SIZE := by
  have hfill : ∀ {r}, fillGap r = some b → b.length = IPADDR_SIZE := by
    rintro ⟨out, gap⟩ hr
    cases gap with
    | none =>
      obtain ⟨hout, rfl⟩ : out.length = IPADDR_SIZE ∧ out = b := by simpa [fillGap] using hr
      exact hout
    | some p =>
      simp only [fillGap, Option.ite_none_left_eq_some, Option.some.injEq] at hr
      obtain ⟨hout, rfl⟩ := hr
      simp only [List.length_append, List.length_take, List.length_replicate, List.length_drop]
      omega
  unfold inetPton6 at h
  split at h
  · cases h
  · dsimp only at h
    split at h
    · cases h
    · obtain ⟨r, -, hr⟩ := Option.bind_eq_some_iff.1 h
      exact hfill hr

theorem and_ones (c : UInt8) : c &&& 255 = c := by
  apply UInt8.toBitVec_inj.1
  exact BitVec.and_allOnes

theorem masked_ones {b : Bytes} (h : b.length ≤ IPADDR_SIZE) :
    masked b (List.replicate IPADDR_SIZE 255) = b := by
  apply List.ext_getElem
  · simp only [masked, List.length_zipWith, List.length_replicate]
    omega
  · intro i hi hi'
    simp [masked, and_ones]

theorem behindByte_eq_none {b : UInt8} {s : Bytes} (h : b ∉ s) : behindByte b s = none := by
  induction s with
  | nil => rfl
  | cons c s ih =>
    rw [behindByte, if_neg (Ne.symm (List.ne_of_not_mem_cons h))]
    exact ih (List.not_mem_of_not_mem_cons h)

/-- A mask without a `'/'` and without a colon takes the address it spells and no other. -/
theorem eq_of_ipmatch {wild str : Bytes} (hslash : slash ∉ wild) (hcolon : colon ∉ wild)
    (h : ipmatch wild str = true) : wild = str := by
  have haddr : wild.takeWhile (· != slash) = wild := by
    rw [List.takeWhile_eq_self_iff]
    intro c hc
    simp only [bne_iff_ne, ne_eq]
    rintro rfl
    exact hslash hc
  have hcount : (wild.take IPADDR_MAXLEN).count colon = 0 :=
    List.count_eq_zero.2 fun hc => hcolon (List.mem_of_mem_take hc)
  have htype : getAddressType (wild.take IPADDR_MAXLEN) =
      (inetPton4 (wild.take IPADDR_MAXLEN)).map fun _ => .inet := by
    rw [getAddressType, if_neg (by omega)]
  rw [ipmatch, haddr, htype, behindByte_eq_none hslash] at h
  cases hw : inetPton4 (wild.take IPADDR_MAXLEN) with
  | none => simp [hw] at h
  | some a =>
    cases hs : inetPton4 str with
    | none => simp [hw, hs, inetPton] at h
    | some b =>
      have hlen : ∀ {s b}, inetPton4 s = some b → b.length ≤ IPADDR_SIZE := by
        intro s b hb
        rw [length_of_inetPton4 hb]
        decide
      have hab : masked a (bitmask .inet none) = masked b (bitmask .inet none) := by
        simpa [hw, hs, inetPton] using h
      rw [bitmask, masked_ones (hlen hw), masked_ones (hlen hs)] at hab
      subst hab
      have hcut := inetPton4_injective hw hs
      have hshort := length_le_of_inetPton4 hw
      rwa [List.take_of_length_le] at hcut
      simp only [List.length_take, IPADDR_MAXLEN] at hshort ⊢
      omega

end Ithildin
