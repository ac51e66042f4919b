import Ithildin.Dns.Packet
import Ithildin.Event.Hooks
import Ithildin.Numbers
import Ithildin.Timer.Timers

/-!
# Lookups

`struct dns_lookup` and what is read off one lookup: the name that is asked for it, and how long its
answer is kept. The functions of the C library that the name depends on are parameters.
-/

namespace Ithildin

namespace Dns

/-- The lists that lookups are on, each with its flag: `DNS_LOOKUP_FL_WAITING`, `_PENDING` and
`_CACHE`. -/
inductive Place
  | waiting | pending | cache
  deriving DecidableEq

/-- `struct dns_lookup`. The last name asked for is not in the program. -/
structure Lookup (F : Type) where
  finished : Event F
  rrClass : ℕ
  type : ℕ
  data : Bytes
  an : List RR
  ns : List RR
  ad : List RR
  /-- The flag of the list it is on. -/
  place : Option Place
  again : Bool
  failed : Bool
  timeout : Bool
  nxdomain : Bool
  id : ℕ
  last : ℤ
  ttl : ℕ
  retry : ℕ
  timer : ℕ
  asked : Option Bytes

/-- What the program has from outside. -/
structure Env where
  /-- `dn_expand` -/
  expand : Expand
  /-- The eight bytes in front of `qry.name` in `dns_packet_parse`. -/
  below : Bytes
  /-- `inet_pton(PF_INET6, ..)` -/
  inetPton6 : Bytes → Option Bytes
  /-- The four numbers after `sscanf(.., "%d.%d.%d.%d", ..)`. -/
  scanQuad : Bytes → ℤ × ℤ × ℤ × ℤ
  /-- What `dn_comp` returns. -/
  dnComp : Bytes → ℤ

/-- The event of a lookup. -/
def lookupEvent {F : Type} : Event F :=
  Event.create { onehook := false, noreturn := true, hookonce := false, conditional := false }

/-! ### Names -/

/-- `"%x"` of four bits. -/
def hexDigit (n : ℕ) : UInt8 := if n < 10 then (48 + n).toUInt8 else (87 + n).toUInt8

/-- The half bytes of an address from its end on, each with a dot. -/
def nibbles (addr : Bytes) : Bytes :=
  addr.reverse.flatMap fun b => [hexDigit (b.toNat % 16), dot, hexDigit (b.toNat / 16), dot]

/-- `"%d.%d.%d.%d.in-addr.arpa"` of the numbers of an address. -/
def inAddrArpa : ℤ × ℤ × ℤ × ℤ → Bytes
  | (c3, c2, c1, c0) =>
    printLong c0 ++ dot :: printLong c1 ++ dot :: printLong c2 ++ dot :: printLong c3 ++
      bytes ".in-addr.arpa"

namespace Lookup

variable {F : Type} (dlp : Lookup F)

/-- A PTR lookup of an address with a colon. -/
def isPtr6 : Bool := dlp.rrClass = classIn ∧ rrType dlp.type = .ptr ∧ colon ∈ dlp.data

/-- Is the address looked for in the older domain? -/
def older : Bool := dlp.isPtr6 && dlp.failed && dlp.again

/-- The name that `dns_lookup_send` asks for; nothing if the address cannot be read. -/
def queryName (env : Env) : Option Bytes :=
  if dlp.isPtr6 then
    (env.inetPton6 dlp.data).map fun addr =>
      nibbles addr ++ if dlp.older then bytes "ip6.int" else bytes "ip6.arpa"
  else if dlp.rrClass = classIn ∧ rrType dlp.type = .ptr then
    some (inAddrArpa (env.scanQuad dlp.data))
  else some dlp.data

/-- The lookup once its name has been made. -/
def named : Lookup F :=
  if dlp.older then { dlp with failed := false, again := false } else dlp

/-- `minttl` in `dns_lookup_finish`; nothing if the data of an SOA is missing. -/
def minTtl (expire : ℕ) : Option ℕ :=
  let minttl := dlp.an.foldl (fun m drp => if drp.ttl < m then drp.ttl else m) expire
  match dlp.an, dlp.ns with
  | [], drp :: _ =>
    if rrType drp.type = .soa then
      match drp.rdata with
      | .soa _ _ _ _ _ _ minimum => some (if minimum < minttl then minimum else minttl)
      | _ => none
    else some minttl
  | _, _ => some minttl

/-- Is the lookup for this key? -/
def hasKey (rrClass type : ℕ) (data : Bytes) : Bool :=
  dlp.rrClass = rrClass ∧ dlp.type = type ∧ data.map toLower = dlp.data.map toLower

end Lookup

end Dns

end Ithildin
