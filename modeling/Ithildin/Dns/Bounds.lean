import Ithildin.Dns.Packet

/-!
# Where the replies are read

Which datagrams `dns_packet_parse` reads within the received length. A record has to have its ten
bytes after the name, and its data, inside the packet; some types read more than the length of the
data says:

* an address is read whole whatever its length is;
* the numbers of an SOA follow two names, wherever these end;
* the strings of an HINFO go on to their NULs;
* the map of a WKS has five bytes less than the data, and the difference is unsigned.
-/

namespace Ithildin

namespace Dns

open Layout

variable {expand : Expand} {pkt below : Bytes} {i n pidx rdata rdlen type rrClass count : ℕ}

/-! ### Records that fit -/

/-- The data of a record are read inside the packet, given that they end there. -/
def RdataFits (expand : Expand) (pkt : Bytes) (rdata rdlen type rrClass : ℕ) : Prop :=
  match rrType type with
  | .a => rrClass = classIn → rdata + 4 ≤ pkt.length
  | .aaaa => rrClass = classIn → rdata + 16 ≤ pkt.length
  | .soa => ∀ mname rc, expand pkt rdata = some (mname, rc) →
      ∀ rname rc', expand pkt (rdata + rc) = some (rname, rc') →
        rdata + rc + rc' + 20 ≤ pkt.length
  | .hinfo => 2 ≤ (pkt.drop rdata).count 0
  | .mx => rdata + 2 ≤ pkt.length
  | .wks => rrClass = classIn → 5 ≤ rdlen
  | _ => True

/-- The names in a record's data can be expanded. -/
def namesExpand (expand : Expand) (pkt : Bytes) (rdata type : ℕ) : Bool :=
  match rrType type with
  | .ns | .cname | .ptr => (expand pkt rdata).isSome
  | .soa | .minfo => (expand pkt rdata).any fun r => (expand pkt (rdata + r.2)).isSome
  | .mx => (expand pkt (rdata + 2)).isSome
  | _ => true

/-- The length that the record whose name ends at `i` gives its data. -/
def rdlenAt (pkt : Bytes) (i : ℕ) : ℕ := be (slice (i + 8) 2 pkt)

/-- The type of the record whose name ends at `i`. -/
def typeAt (pkt : Bytes) (i : ℕ) : ℕ := be (slice i 2 pkt)

/-- The class of the record whose name ends at `i`. -/
def classAt (pkt : Bytes) (i : ℕ) : ℕ := be (slice (i + 2) 2 pkt)

/-- The record whose name ends at `i` is inside the packet. -/
def RecordFits (expand : Expand) (pkt : Bytes) (i : ℕ) : Prop :=
  i + 10 ≤ pkt.length ∧ (rdlenAt pkt i ≠ 0 → i + 10 + rdlenAt pkt i ≤ pkt.length ∧
    RdataFits expand pkt (i + 10) (rdlenAt pkt i) (typeAt pkt i) (classAt pkt i))

/-- The record whose name ends at `i` is followed by the next one. -/
def goesOn (expand : Expand) (pkt : Bytes) (i : ℕ) : Bool :=
  rdlenAt pkt i = 0 || namesExpand expand pkt (i + 10) (typeAt pkt i)

/-- The records of a section are inside the packet, up to the first name that cannot be expanded. -/
def SectionFits (expand : Expand) (pkt : Bytes) : ℕ → ℕ → Prop
  | 0, _ => True
  | count + 1, pidx => ∀ name rc, expand pkt pidx = some (name, rc) →
      RecordFits expand pkt (pidx + rc) ∧ (goesOn expand pkt (pidx + rc) →
        SectionFits expand pkt count (pidx + rc + 10 + rdlenAt pkt (pidx + rc)))

/-- Where the next section starts. -/
def sectionEnd (expand : Expand) (pkt : Bytes) : ℕ → ℕ → ℕ
  | 0, pidx => pidx
  | count + 1, pidx =>
    match expand pkt pidx with
    | none => pidx
    | some (_, rc) =>
      let next := pidx + rc + 10 + rdlenAt pkt (pidx + rc)
      if goesOn expand pkt (pidx + rc) then sectionEnd expand pkt count next else next

/-- The three sections are inside the packet. -/
def SectionsFit (expand : Expand) (pkt : Bytes) (an ns ad pidx : ℕ) : Prop :=
  SectionFits expand pkt an pidx ∧
    let pidx := sectionEnd expand pkt an pidx
    SectionFits expand pkt ns pidx ∧ SectionFits expand pkt ad (sectionEnd expand pkt ns pidx)

/-- The question and the sections that are read after it are inside the packet. -/
def ReplyFits (expand : Expand) (below : Bytes) (known : ℕ → Bool) (pkt : Bytes) : Prop :=
  let hdr := header pkt
  12 + 4 ≤ pkt.length → known hdr.id → hdr.qdcount = 1 → hdr.qr → hdr.opcode = 0 → hdr.tc = false →
    ∀ name rc, expand pkt 12 = some (name, rc) → 12 + rc + 4 ≤ pkt.length ∧
      (hdr.rcode = 0 ∨ hdr.rcode = 3 ∧ ¬(classAt pkt (12 + rc) = classIn ∧
          rrType (typeAt pkt (12 + rc)) = .ptr ∧ isIp6Arpa below name) →
        SectionsFit expand pkt hdr.ancount hdr.nscount hdr.adcount (12 + rc + 4))

/-! ### One read -/

theorem isSome_fetch_bind {α : Type} {f : Bytes → Option α} :
    ((fetch pkt i n).bind f).isSome ↔
      (n = 0 ∨ i + n ≤ pkt.length) ∧ (f (slice i n pkt)).isSome := by
  rw [fetch]
  split <;> simp [*]

theorem isSome_fetch_map {α : Type} {f : Bytes → α} :
    ((fetch pkt i n).map f).isSome ↔ n = 0 ∨ i + n ≤ pkt.length := by
  rw [fetch]
  split <;> simp [*]

theorem isSome_bind_some {α β : Type} {x : Option α} {f : α → β} :
    (x.bind fun a => some (f a)).isSome ↔ x.isSome := by
  cases x <;> rfl

/-- Two strings can be read one after the other exactly when there are two NULs. -/
theorem isSome_fetchStr_bind {α : Type} {f : Bytes → Bytes → α} :
    ((fetchStr pkt i).bind fun s =>
        (fetchStr pkt (i + s.length + 1)).bind fun s' => some (f s s')).isSome ↔
      2 ≤ (pkt.drop i).count 0 := by
  rw [fetchStr, cString]
  by_cases h : (0 : UInt8) ∈ pkt.drop i
  · obtain ⟨r, hr⟩ := exists_strAt h
    have htext : (0 : UInt8) ∉ strAt (pkt.drop i) := isText_strAt _
    have hdrop : pkt.drop (i + (strAt (pkt.drop i)).length + 1) = r := by
      rw [Nat.add_assoc, ← List.drop_drop, ← List.drop_drop]
      generalize strAt (pkt.drop i) = s at hr
      rw [hr, List.drop_left, List.drop_one, List.tail_cons]
    have hcount : (pkt.drop i).count 0 = r.count 0 + 1 := by
      conv_lhs => rw [hr]
      rw [List.count_append, List.count_eq_zero_of_not_mem htext, List.count_cons_self,
        Nat.zero_add]
    rw [if_pos h, Option.bind_some, fetchStr, hdrop, cString, hcount,
      Nat.succ_le_succ_iff, Nat.one_le_iff_ne_zero, ne_eq, List.count_eq_zero, not_not]
    by_cases h' : (0 : UInt8) ∈ r
    · rw [if_pos h', Option.bind_some]
      exact iff_of_true rfl h'
    · rw [if_neg h', Option.bind_none]
      exact iff_of_false Bool.false_ne_true h'
  · rw [if_neg h, Option.bind_none, List.count_eq_zero_of_not_mem h]
    simp

/-! ### One record -/

/-- The map of a WKS is inside the packet exactly when its length is not negative. -/
theorem mapFits_iff (hlen : pkt.length ≤ maxPacketSize) (hfit : rdata + rdlen ≤ pkt.length) :
    (sizeT (rdlen - 5) = 0 ∨ rdata + 5 + sizeT (rdlen - 5) ≤ pkt.length) ↔ 5 ≤ rdlen := by
  rw [maxPacketSize] at hlen
  by_cases h : 5 ≤ rdlen
  · have hsize : sizeT (rdlen - 5) = rdlen - 5 := by
      rw [sizeT]
      omega
    rw [hsize]
    omega
  · have hsize : 512 < sizeT (rdlen - 5) := by
      rw [sizeT]
      omega
    omega

/-- The data are read inside the packet exactly when they fit. -/
theorem isSome_readRdata (hlen : pkt.length ≤ maxPacketSize) (h0 : rdlen ≠ 0) :
    (readRdata expand pkt rdata rdlen type rrClass).isSome ↔
      rdata + rdlen ≤ pkt.length ∧ RdataFits expand pkt rdata rdlen type rrClass := by
  rw [readRdata, Option.bind_eq_bind, isSome_fetch_bind, or_iff_right h0]
  refine and_congr_right fun hfit => ?_
  rw [RdataFits]
  cases rrType type with
  | a | aaaa =>
    by_cases hin : rrClass = classIn
    · simp only [hin, if_true, isSome_fetch_map, true_imp_iff]
      omega
    · simp [hin]
  | soa =>
    cases hm : expand pkt rdata with
    | none => simp
    | some m =>
      cases hr : expand pkt (rdata + m.2) with
      | none =>
        simp only [hr, Option.isSome_some, true_iff]
        rintro mname rc hmname rname rc' hrname
        cases hmname
        cases hr.symm.trans hrname
      | some r =>
        simp only [hr, isSome_fetch_map]
        constructor
        · rintro h mname rc hmname rname rc' hrname
          cases hmname
          cases hr.symm.trans hrname
          omega
        · intro h
          exact Or.inr (h m.1 m.2 rfl r.1 r.2 hr)
  | hinfo => exact isSome_fetchStr_bind
  | mx =>
    simp only [isSome_fetch_bind, Option.isSome_some, and_true]
    omega
  | wks =>
    by_cases hin : rrClass = classIn
    · simp only [hin, if_true, isSome_fetch_bind, Option.isSome_some, and_true, true_imp_iff,
        mapFits_iff hlen hfit]
      omega
    · simp [hin]
  | minfo =>
    cases hm : expand pkt rdata with
    | none => simp
    | some m => simp
  | ns | cname | ptr | other => simp

/-- A record is there exactly when the names in its data can be expanded. -/
theorem namesExpand_of_readRdata {r : Option Rdata}
    (h : readRdata expand pkt rdata rdlen type rrClass = some r) :
    r.isSome = namesExpand expand pkt rdata type := by
  rw [readRdata, Option.bind_eq_bind, Option.bind_eq_some_iff] at h
  obtain ⟨txt, -, h⟩ := h
  rw [namesExpand]
  revert h
  cases rrType type with
  | a | aaaa =>
    dsimp only
    split
    · rw [Option.map_eq_some_iff]
      rintro ⟨b, -, rfl⟩
      rfl
    · rintro ⟨⟩
      rfl
  | ns | cname | ptr =>
    rintro ⟨⟩
    exact Option.isSome_map
  | soa =>
    dsimp only
    cases hm : expand pkt rdata with
    | none =>
      rintro ⟨⟩
      rfl
    | some m =>
      cases hr : expand pkt (rdata + m.2) with
      | none =>
        simp only [hr]
        rintro ⟨⟩
        simp [hr]
      | some r =>
        simp only [hr, Option.map_eq_some_iff]
        rintro ⟨b, -, rfl⟩
        simp [hr]
  | hinfo =>
    simp only [Option.bind_eq_some_iff]
    rintro ⟨cpu, -, os, -, ⟨⟩⟩
    rfl
  | minfo =>
    dsimp only
    cases expand pkt rdata with
    | none =>
      rintro ⟨⟩
      rfl
    | some m =>
      rintro ⟨⟩
      exact Option.isSome_map
  | mx =>
    simp only [Option.bind_eq_some_iff]
    rintro ⟨preference, -, ⟨⟩⟩
    exact Option.isSome_map
  | wks =>
    dsimp only
    split
    · simp only [Option.bind_eq_some_iff]
      rintro ⟨address, -, protocol, -, map, -, ⟨⟩⟩
      rfl
    · rintro ⟨⟩
      rfl
  | other =>
    rintro ⟨⟩
    rfl

/-- A record is read inside the packet exactly when it fits. -/
theorem isSome_readRR (hlen : pkt.length ≤ maxPacketSize) {name : Bytes} {rc : ℕ}
    (hname : expand pkt pidx = some (name, rc)) :
    (readRR expand pkt pidx).isSome ↔ RecordFits expand pkt (pidx + rc) := by
  simp only [readRR, hname, Option.bind_eq_bind, isSome_fetch_bind, RecordFits, rdlenAt, typeAt,
    classAt, OfNat.ofNat_ne_zero, false_or]
  by_cases h0 : be (slice (pidx + rc + 8) 2 pkt) = 0
  · simp only [h0, if_true, Option.isSome_some, and_true, ne_eq, not_true_eq_false, false_imp_iff]
    omega
  · simp only [h0, if_false, isSome_bind_some, isSome_readRdata hlen h0, ne_eq, not_false_eq_true,
      true_imp_iff]
    constructor
    · rintro ⟨-, -, -, h10, h⟩
      exact ⟨h10, h⟩
    · rintro ⟨h10, h⟩
      exact ⟨by omega, by omega, by omega, h10, h⟩

/-- Where a record that is read inside the packet ends, and whether it is there. -/
theorem readRR_eq_some {name : Bytes} {rc pidx' : ℕ} {r : Option RR}
    (hname : expand pkt pidx = some (name, rc)) (h : readRR expand pkt pidx = some (pidx', r)) :
    pidx' = pidx + rc + 10 + rdlenAt pkt (pidx + rc) ∧
      r.isSome = goesOn expand pkt (pidx + rc) := by
  simp only [readRR, hname, Option.bind_eq_bind, Option.bind_eq_some_iff] at h
  obtain ⟨type, htype, rrClass, -, ttl, -, len, hlen, h⟩ := h
  obtain rfl := fetch_eq_some htype
  obtain rfl := fetch_eq_some hlen
  rw [goesOn, rdlenAt, typeAt]
  split at h
  · rename_i h0
    cases h
    rw [h0]
    exact ⟨rfl, rfl⟩
  · rename_i h0
    obtain ⟨rdata, hrdata, h⟩ := Option.bind_eq_some_iff.1 h
    cases h
    rw [Option.isSome_map, namesExpand_of_readRdata hrdata, decide_eq_false h0, Bool.false_or]
    exact ⟨rfl, rfl⟩

/-! ### The sections -/

/-- The records of a section are read inside the packet exactly when they fit. -/
theorem isSome_extractRRs (hlen : pkt.length ≤ maxPacketSize) :
    (extractRRs expand pkt count pidx).isSome ↔ SectionFits expand pkt count pidx := by
  induction count generalizing pidx with
  | zero => exact iff_of_true rfl trivial
  | succ count ih =>
    rw [SectionFits]
    cases hname : expand pkt pidx with
    | none => simp [extractRRs, readRR, hname]
    | some m =>
      obtain ⟨name, rc⟩ := m
      have hfits := isSome_readRR hlen hname
      have hone : (∀ name' rc', some (name, rc) = some (name', rc') →
          RecordFits expand pkt (pidx + rc') ∧ (goesOn expand pkt (pidx + rc') →
            SectionFits expand pkt count (pidx + rc' + 10 + rdlenAt pkt (pidx + rc')))) ↔
          RecordFits expand pkt (pidx + rc) ∧ (goesOn expand pkt (pidx + rc) →
            SectionFits expand pkt count (pidx + rc + 10 + rdlenAt pkt (pidx + rc))) := by
        constructor
        · intro h
          exact h name rc rfl
        · rintro h name' rc' ⟨⟩
          exact h
      rw [hone, ← hfits, extractRRs]
      cases hrr : readRR expand pkt pidx with
      | none => simp
      | some p =>
        obtain ⟨pidx', r⟩ := p
        obtain ⟨rfl, hr⟩ := readRR_eq_some hname hrr
        rw [← hr, ← ih]
        cases r with
        | none => simp
        | some rr =>
          cases hrest : extractRRs expand pkt count (pidx + rc + 10 + rdlenAt pkt (pidx + rc)) with
          | none => simp [hrest]
          | some q => simp [hrest]

/-- Where a section that is read inside the packet ends. -/
theorem extractRRs_eq_some {last : ℕ} {rrs : List RR}
    (h : extractRRs expand pkt count pidx = some (last, rrs)) :
    last = sectionEnd expand pkt count pidx := by
  induction count generalizing pidx last rrs with
  | zero =>
    cases h
    rfl
  | succ count ih =>
    rw [sectionEnd]
    cases hname : expand pkt pidx with
    | none =>
      simp only [extractRRs, readRR, hname] at h
      cases h
      rfl
    | some m =>
      obtain ⟨name, rc⟩ := m
      rw [extractRRs, Option.bind_eq_bind, Option.bind_eq_some_iff] at h
      obtain ⟨⟨pidx', r⟩, hrr, h⟩ := h
      obtain ⟨rfl, hr⟩ := readRR_eq_some hname hrr
      dsimp only
      rw [← hr]
      cases r with
      | none =>
        cases h
        rfl
      | some rr =>
        obtain ⟨⟨last', rrs'⟩, hrest, h⟩ := Option.bind_eq_some_iff.1 h
        cases h
        exact ih hrest

theorem isSome_extractRRs_bind (hlen : pkt.length ≤ maxPacketSize) {α : Type}
    {f : ℕ × List RR → Option α} {p : Prop}
    (h : ∀ rrs, (f (sectionEnd expand pkt count pidx, rrs)).isSome ↔ p) :
    ((extractRRs expand pkt count pidx).bind f).isSome ↔ SectionFits expand pkt count pidx ∧ p := by
  rw [← isSome_extractRRs hlen]
  cases hrrs : extractRRs expand pkt count pidx with
  | none => simp
  | some r =>
    obtain ⟨last, rrs⟩ := r
    obtain rfl := extractRRs_eq_some hrrs
    rw [Option.bind_some, h rrs, Option.isSome_some, and_iff_right rfl]

/-- The three sections, one after the other. -/
theorem isSome_sections (hlen : pkt.length ≤ maxPacketSize) {α : Type}
    (f : List RR → List RR → List RR → α) {an ns ad : ℕ} :
    ((extractRRs expand pkt an pidx).bind fun r => (extractRRs expand pkt ns r.1).bind fun r' =>
        (extractRRs expand pkt ad r'.1).bind fun r'' => some (f r.2 r'.2 r''.2)).isSome ↔
      SectionsFit expand pkt an ns ad pidx := by
  rw [SectionsFit]
  apply isSome_extractRRs_bind hlen
  intro an
  apply isSome_extractRRs_bind hlen
  intro ns
  exact isSome_bind_some.trans (isSome_extractRRs hlen)

/-! ### Replies -/

theorem header_slice : header (slice 0 12 pkt) = header pkt := by
  have hbyte : ∀ i < 12, (slice 0 12 pkt).getD i 0 = pkt.getD i 0 := by
    intro i hi
    rw [slice, List.drop_zero, List.getD_eq_getElem?_getD, List.getElem?_take, if_pos hi,
      List.getD_eq_getElem?_getD]
  simp only [header, hbyte 2 (by decide), hbyte 3 (by decide),
    slice_slice (show 0 + 2 ≤ 12 by decide),
    slice_slice (show 4 + 2 ≤ 12 by decide), slice_slice (show 6 + 2 ≤ 12 by decide),
    slice_slice (show 8 + 2 ≤ 12 by decide), slice_slice (show 10 + 2 ≤ 12 by decide), Nat.zero_add]

/-- A datagram is read within its length exactly when the question and the records that are looked
at fit. -/
theorem packetParse_reads_within_iff (expand : Expand) (below : Bytes) (known : ℕ → Bool)
    (pkt : Bytes)
    (hlen : pkt.length ≤ maxPacketSize) :
    (packetParse expand below known pkt).isSome ↔ ReplyFits expand below known pkt := by
  rw [packetParse, ReplyFits]
  by_cases hmin : pkt.length < 12 + 4
  · rw [if_pos hmin]
    exact iff_of_true rfl fun h => absurd h (by omega)
  rw [if_neg hmin, Option.bind_eq_bind, isSome_fetch_bind, and_iff_right (by omega), header_slice]
  generalize header pkt = hdr
  dsimp only
  split
  · rename_i hknown
    exact iff_of_true rfl fun _ h => absurd h (ne_true_of_eq_false hknown)
  rename_i hknown
  split
  · rename_i hmangled
    refine iff_of_true rfl fun _ _ hqd hqr hop => ?_
    rcases hmangled with h | h | h
    · exact absurd hqd h
    · exact absurd hqr (ne_true_of_eq_false h)
    · exact absurd hop h
  rename_i hmangled
  split
  · rename_i htc
    exact iff_of_true rfl fun _ _ _ _ _ h => absurd htc (ne_true_of_eq_false h)
  rename_i htc
  have hguards : ∀ p : Prop, p ↔ (12 + 4 ≤ pkt.length → known hdr.id → hdr.qdcount = 1 → hdr.qr →
      hdr.opcode = 0 → hdr.tc = false → p) := by
    simp only [not_or, not_not] at hmangled
    intro p
    refine ⟨fun h _ _ _ _ _ _ => h, fun h => ?_⟩
    exact h (by omega) (eq_true_of_ne_false hknown) hmangled.1 (eq_true_of_ne_false hmangled.2.1)
      hmangled.2.2 (eq_false_of_ne_true htc)
  rw [← hguards]
  cases hname : expand pkt 12 with
  | none => exact iff_of_true rfl (by simp)
  | some m =>
    obtain ⟨name, rc⟩ := m
    have hone : ∀ p : Bytes → ℕ → Prop,
        (∀ name' rc', some (name, rc) = some (name', rc') → p name' rc') ↔ p name rc := by
      refine fun p => ⟨fun h => h name rc rfl, ?_⟩
      rintro h name' rc' ⟨⟩
      exact h
    rw [hone]
    simp only [isSome_fetch_bind, OfNat.ofNat_ne_zero, false_or, typeAt, classAt]
    split
    · rename_i hrcode
      have hnot : ¬(hdr.rcode = 0 ∨ hdr.rcode = 3 ∧ ¬(be (slice (12 + rc + 2) 2 pkt) = classIn ∧
          rrType (be (slice (12 + rc) 2 pkt)) = .ptr ∧ isIp6Arpa below name)) := by
        rintro (h | h)
        · exact hrcode.1 h
        · exact hrcode.2 h.1
      simp only [hnot, false_imp_iff, and_true, Option.isSome_some]
      omega
    rename_i hrcode
    split
    · rename_i hagain
      have hnot : ¬(hdr.rcode = 0 ∨ hdr.rcode = 3 ∧ ¬(be (slice (12 + rc + 2) 2 pkt) = classIn ∧
          rrType (be (slice (12 + rc) 2 pkt)) = .ptr ∧ isIp6Arpa below name)) := by
        rintro (h | h)
        · omega
        · exact h.2 hagain.2
      simp only [hnot, false_imp_iff, and_true, Option.isSome_some]
      omega
    rename_i hagain
    have hsections : hdr.rcode = 0 ∨ hdr.rcode = 3 ∧ ¬(be (slice (12 + rc + 2) 2 pkt) = classIn ∧
        rrType (be (slice (12 + rc) 2 pkt)) = .ptr ∧ isIp6Arpa below name) := by
      by_cases h0 : hdr.rcode = 0
      · exact Or.inl h0
      · exact Or.inr ⟨by omega, fun h => hagain ⟨by omega, h⟩⟩
    simp only [hsections, true_imp_iff]
    rw [← isSome_sections hlen fun an ns ad =>
      some (hdr.id, Reply.answered (hdr.rcode = 3 || an.isEmpty) an ns ad)]
    exact ⟨fun h => ⟨by omega, h.2.2⟩, fun h => ⟨by omega, by omega, h.2⟩⟩

/-- `dn_expand` where the only names are roots. -/
def expandRoot : Expand := fun pkt i => if pkt[i]? = some 0 then some ([], 1) else none

/-- The answer to a question for the address of the root. -/
def rootReply : Bytes :=
  [0, 7, 128, 0, 0, 1, 0, 1, 0, 0, 0, 0] ++ [0, 0, 1, 0, 1] ++
    [0, 0, 1, 0, 1, 0, 0, 0, 60, 0, 4, 10, 0, 0, 1]

theorem packetParse_reads_within_iff_root :
    (packetParse expandRoot [] (· = 7) rootReply).isSome ∧
      ReplyFits expandRoot [] (· = 7) rootReply := by
  have hread : (packetParse expandRoot [] (· = 7) rootReply).isSome := by decide +kernel
  exact ⟨hread, (packetParse_reads_within_iff expandRoot [] (· = 7) rootReply (by decide)).1 hread⟩

/-- A reply of the shortest length that is looked at, with nothing but the question. -/
def shortReply : Bytes := [0, 7, 128, 0, 0, 1, 0, 0, 0, 0, 0, 0] ++ [0, 0, 1, 0]

/-- The class of the question is read past the end. -/
theorem packetParse_reads_past_end :
    (∀ pkt i name rc, expandRoot pkt i = some (name, rc) → 1 ≤ rc ∧ i + rc ≤ pkt.length) ∧
      shortReply.length ≤ maxPacketSize ∧
      packetParse expandRoot [] (· = 7) shortReply = none := by
  refine ⟨?_, by decide, by decide +kernel⟩
  intro pkt i name rc h
  rw [expandRoot] at h
  split at h
  · rename_i hroot
    cases h
    exact ⟨le_rfl, (List.getElem?_eq_some_iff.1 hroot).1⟩
  · cases h

end Dns

end Ithildin
