import Ithildin.CString
import Ithildin.Match
import Ithildin.Lib.Layout

/-!
# Replies of the nameserver

`dns_packet_parse` and `extract_rrs`, on the bytes received. Every read of the packet is checked
here: one at or past the received length yields nothing. `dn_expand` is a parameter: for a position
it gives the name that starts there and how many bytes of the packet it takes, or fails.

What a reply does to the lookup it is matched with is a `Reply`.
-/

namespace Ithildin

namespace Dns

open Layout

/-! ### Numbers -/

/-- `DNS_MAX_PACKET_SIZE` -/
def maxPacketSize : ℕ := 512

/-- `DNS_MAX_NAMELEN` -/
def maxNamelen : ℕ := 1024

/-- `DNS_C_IN` -/
def classIn : ℕ := 1

/-- The types of records that `extract_rrs` looks into. -/
inductive RRType
  | a | ns | cname | soa | wks | ptr | hinfo | minfo | mx | aaaa | other
  deriving DecidableEq

/-- The number of a type, as `dns_type_t` has it. -/
def rrType : ℕ → RRType
  | 1 => .a
  | 2 => .ns
  | 5 => .cname
  | 6 => .soa
  | 11 => .wks
  | 12 => .ptr
  | 13 => .hinfo
  | 14 => .minfo
  | 15 => .mx
  | 28 => .aaaa
  | _ => .other

/-! ### Records -/

/-- The data of a record. -/
inductive Rdata
  | txt (data : Bytes)
  /-- The bytes that `inet_ntop` makes a text of. -/
  | addr (data : Bytes)
  | name (data : Bytes)
  | soa (mname rname : Bytes) (serial refresh retry expire minimum : ℕ)
  | hinfo (cpu os : Bytes)
  | minfo (rmailbx emailbx : Bytes)
  | mx (preference : ℕ) (exchange : Bytes)
  | wks (address : Bytes) (protocol : ℕ) (map : Bytes)
  deriving DecidableEq

/-- `struct dns_rr` -/
structure RR where
  name : Bytes
  type : ℕ
  rrClass : ℕ
  ttl : ℕ
  rdata : Rdata
  deriving DecidableEq

/-- `dn_expand` on a packet: the name at a position and the length it has there. -/
abbrev Expand := Bytes → ℕ → Option (Bytes × ℕ)

/-! ### Reading -/

/-- A number in network order. -/
def be (b : Bytes) : ℕ := b.foldl (fun n c => n * 256 + c.toNat) 0

/-- Read `n` bytes from position `i` on. -/
def fetch (pkt : Bytes) (i n : ℕ) : Option Bytes :=
  if n = 0 ∨ i + n ≤ pkt.length then some (slice i n pkt) else none

theorem fetch_eq_some {pkt b : Bytes} {i n : ℕ} (h : fetch pkt i n = some b) :
    b = slice i n pkt := by
  rw [fetch] at h
  split at h
  · exact (Option.some.inj h).symm
  · cases h

/-- Read a string from position `i` on, with its NUL. -/
def fetchStr (pkt : Bytes) (i : ℕ) : Option Bytes := cString (pkt.drop i)

/-- A number read as a `size_t`. -/
def sizeT (n : ℤ) : ℕ := (n % 2 ^ 64).toNat

/-- The record's data, which start at `rdata`; the inner nothing is a name that cannot be
expanded. -/
def readRdata (expand : Expand) (pkt : Bytes) (rdata rdlen : ℕ) (type rrClass : ℕ) :
    Option (Option Rdata) := do
  let txt ← fetch pkt rdata rdlen
  match rrType type with
  | .a =>
      if rrClass = classIn then (fetch pkt rdata 4).map (some ∘ .addr) else some (some (.txt txt))
  | .aaaa =>
    if rrClass = classIn then (fetch pkt rdata 16).map (some ∘ .addr) else some (some (.txt txt))
  | .ns | .cname | .ptr => some ((expand pkt rdata).map fun r => .name r.1)
  | .soa =>
    match expand pkt rdata with
    | none => some none
    | some (mname, rc) =>
      match expand pkt (rdata + rc) with
      | none => some none
      | some (rname, rc') =>
        (fetch pkt (rdata + rc + rc') 20).map fun b =>
          some (.soa mname rname (be (slice 0 4 b)) (be (slice 4 4 b)) (be (slice 8 4 b))
            (be (slice 12 4 b)) (be (slice 16 4 b)))
  | .hinfo => do
    let cpu ← fetchStr pkt rdata
    let os ← fetchStr pkt (rdata + cpu.length + 1)
    some (some (.hinfo (cpu.take maxNamelen) (os.take maxNamelen)))
  | .minfo =>
    match expand pkt rdata with
    | none => some none
    | some (rmailbx, rc) =>
      some ((expand pkt (rdata + rc)).map fun r => .minfo rmailbx r.1)
  | .mx => do
    let preference ← fetch pkt rdata 2
    some ((expand pkt (rdata + 2)).map fun r => .mx (be preference) r.1)
  | .wks =>
    if rrClass = classIn then do
      let address ← fetch pkt rdata 4
      let protocol ← fetch pkt (rdata + 4) 1
      -- the length is unsigned
      let map ← fetch pkt (rdata + 5) (sizeT (rdlen - 5))
      some (some (.wks address (be protocol) map))
    else some (some (.txt txt))
  | .other => some (some (.txt txt))

/-- One turn of the loop of `extract_rrs`: the new position, and the record unless a name cannot be
expanded. -/
def readRR (expand : Expand) (pkt : Bytes) (pidx : ℕ) : Option (ℕ × Option RR) :=
  match expand pkt pidx with
  | none => some (pidx, none)
  | some (name, rc) => do
    let type ← fetch pkt (pidx + rc) 2
    let rrClass ← fetch pkt (pidx + rc + 2) 2
    let ttl ← fetch pkt (pidx + rc + 4) 4
    let len ← fetch pkt (pidx + rc + 8) 2
    let rdlen := be len
    let rr := fun rdata => RR.mk name (be type) (be rrClass) (be ttl) rdata
    if rdlen = 0 then some (pidx + rc + 10, some (rr (.txt [])))
    else do
      let rdata ← readRdata expand pkt (pidx + rc + 10) rdlen (be type) (be rrClass)
      some (pidx + rc + 10 + rdlen, rdata.map rr)

/-- `extract_rrs`: the new position and the records. -/
def extractRRs (expand : Expand) (pkt : Bytes) : ℕ → ℕ → Option (ℕ × List RR)
  | 0, pidx => some (pidx, [])
  | count + 1, pidx => do
    match ← readRR expand pkt pidx with
    | (pidx', none) => some (pidx', [])
    | (pidx', some rr) => do
      let (last, rrs) ← extractRRs expand pkt count pidx'
      some (last, rr :: rrs)

/-! ### Replies -/

/-- `struct dns_packet_header`, of what is looked at. -/
structure Header where
  id : ℕ
  qr : Bool
  opcode : ℕ
  tc : Bool
  rcode : ℕ
  qdcount : ℕ
  ancount : ℕ
  nscount : ℕ
  adcount : ℕ
  deriving DecidableEq

/-- The header in the first twelve bytes. -/
def header (b : Bytes) : Header :=
  let x := (b.getD 2 0).toNat
  let y := (b.getD 3 0).toNat
  { id := be (slice 0 2 b), qr := x / 128 = 1, opcode := x / 8 % 16, tc := x / 2 % 2 = 1,
    rcode := y % 16, qdcount := be (slice 4 2 b), ancount := be (slice 6 2 b),
    nscount := be (slice 8 2 b), adcount := be (slice 10 2 b) }

/-- What a reply does to the lookup it is matched with. -/
inductive Reply
  /-- Nothing. -/
  | ignored
  /-- The lookup has failed and is finished. -/
  | failed
  /-- The lookup is sent again, for the other reverse domain. -/
  | again
  /-- The lookup is finished with these records. -/
  | answered (nxdomain : Bool) (an ns ad : List RR)
  deriving DecidableEq

/-- `!strcasecmp(qry.name + strlen(qry.name) - 8, "ip6.arpa")`, with the eight bytes that stand
before `qry.name` in memory. -/
def isIp6Arpa (below name : Bytes) : Bool :=
  (strAt (slice name.length 8 (below ++ name))).map toLower == bytes "ip6.arpa"

/-- `dns_packet_parse`, with the outstanding lookups that the reply may belong to. The outer nothing
is a read at or past the received length, the inner one a reply that belongs to no lookup. -/
def packetParse (expand : Expand) (below : Bytes) (known : ℕ → Bool) (pkt : Bytes) :
    Option (Option (ℕ × Reply)) :=
  if pkt.length < 12 + 4 then some none
  else do
    let hdr := header (← fetch pkt 0 12)
    if known hdr.id = false then some none
    else if hdr.qdcount ≠ 1 ∨ hdr.qr = false ∨ hdr.opcode ≠ 0 then some (some (hdr.id, .ignored))
    else if hdr.tc then some (some (hdr.id, .failed))
    else
      match expand pkt 12 with
      | none => some (some (hdr.id, .ignored))
      | some (name, rc) => do
        let type ← fetch pkt (12 + rc) 2
        let rrClass ← fetch pkt (12 + rc + 2) 2
        if hdr.rcode ≠ 0 ∧ hdr.rcode ≠ 3 then some (some (hdr.id, .failed))
        else if hdr.rcode = 3 ∧ be rrClass = classIn ∧ rrType (be type) = .ptr ∧
            isIp6Arpa below name then some (some (hdr.id, .again))
        else do
          let (pidx, an) ← extractRRs expand pkt hdr.ancount (12 + rc + 4)
          let (pidx, ns) ← extractRRs expand pkt hdr.nscount pidx
          let (_, ad) ← extractRRs expand pkt hdr.adcount pidx
          some (some (hdr.id, .answered (hdr.rcode = 3 || an.isEmpty) an ns ad))

end Dns

end Ithildin
