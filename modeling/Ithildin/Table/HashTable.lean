import Ithildin.Match
import Mathlib.Algebra.Group.Nat.Defs
import Mathlib.Logic.Function.Basic

/-!
# Hash tables

`hash_get_key_hash` and the functions on a table. An entry is a pointer with the bytes of its
structure behind it, and so is the key that is looked for; the comparison is a parameter, since a
table names any symbol for it.

All counts are 32-bit. An access outside the buckets that are allocated yields nothing.
-/

namespace Ithildin

/-- Bytes from an address on. -/
abbrev Memory := ℕ → UInt8

/-- The flags and sizes of a table that never change. -/
structure TableConf where
  /-- `HASH_FL_NOCASE` -/
  nocase : Bool
  /-- `HASH_FL_STRING` -/
  string : Bool
  /-- `HASH_FL_INSERTTAIL` -/
  inserttail : Bool
  keyoffset : ℕ
  keylen : ℕ
  /-- What the symbol `cmpsym` stands for. -/
  cmp : Memory → Memory → ℕ → ℤ

namespace TableConf

/-! ### The hash of a key -/

/-- The variables of the hash. -/
structure Mixed where
  a : UInt32
  b : UInt32
  c : UInt32
  deriving DecidableEq

/-- The macro `mix`. -/
def mix (m : Mixed) : Mixed :=
  let ⟨a, b, c⟩ := m
  let a := (a - b - c) ^^^ (c >>> 13)
  let b := (b - c - a) ^^^ (a <<< 8)
  let c := (c - a - b) ^^^ (b >>> 13)
  let a := (a - b - c) ^^^ (c >>> 12)
  let b := (b - c - a) ^^^ (a <<< 16)
  let c := (c - a - b) ^^^ (b >>> 5)
  let a := (a - b - c) ^^^ (c >>> 3)
  let b := (b - c - a) ^^^ (a <<< 10)
  let c := (c - a - b) ^^^ (b >>> 15)
  ⟨a, b, c⟩

/-- Four bytes as a number, the first one lowest. -/
def word (x0 x1 x2 x3 : UInt32) : UInt32 :=
  x0 + (x1 <<< 8) + (x2 <<< 16) + (x3 <<< 24)

/-- The loop over twelve bytes at a time. Byte 4 of each round is left out and the first byte of the
next round is read. -/
def rounds : ℕ → (ℕ → UInt32) → Mixed → Mixed
  | 0, _, m => m
  | n + 1, key, m =>
    rounds n (fun i => key (12 + i))
      (mix { a := m.a + word (key 0) (key 1) (key 2) (key 3)
             b := m.b + word (key 5) (key 6) (key 7) (key 8)
             c := m.c + word (key 9) (key 10) (key 11) (key 12) })

/-- A byte of the last eleven, if there are as many. -/
def tailByte (len : ℕ) (key : ℕ → UInt32) (i : ℕ) (shift : UInt32) : UInt32 :=
  if i < len then key i <<< shift else 0

/-- The last eleven bytes or fewer. -/
def lastBytes (len : ℕ) (key : ℕ → UInt32) (m : Mixed) : Mixed where
  a := m.a
  b := m.b + tailByte len key 7 24 + tailByte len key 6 16 + tailByte len key 5 8 +
    tailByte len key 4 0 + tailByte len key 3 24 + tailByte len key 2 16 + tailByte len key 1 8 +
    tailByte len key 0 0
  c := m.c + tailByte len key 10 24 + tailByte len key 9 16 + tailByte len key 8 8

/-- The number of bytes that are hashed. -/
def hashLength (conf : TableConf) (key : Memory) : ℕ :=
  (if conf.string then ((List.range conf.keylen).find? fun i => key i = 0).getD conf.keylen
    else conf.keylen) % 2 ^ 32

/-- The bytes as they are hashed. -/
def hashByte (conf : TableConf) (key : Memory) (i : ℕ) : UInt32 :=
  (if conf.nocase then toLower (key i) else key i).toUInt32

/-- `hash_get_key_hash` up to the mask at its end. -/
def keyHash (conf : TableConf) (key : Memory) : UInt32 :=
  let length := conf.hashLength key
  let bytes := conf.hashByte key
  let m := rounds (length / 12) bytes { a := 0x9e3779b9, b := 0x9e3779b9, c := 0xb33ff00d }
  (mix (lastBytes (length % 12) (fun i => bytes (length / 12 * 12 + i))
    { m with c := m.c + UInt32.ofNat length })).c

end TableConf

/-! ### Tables -/

/-- `struct hashent`. -/
structure Hashent (E : Type) where
  ent : E
  hv : UInt32
  deriving DecidableEq

/-- `struct hashtable`. -/
structure HashTable (E : Type) where
  size : UInt32
  entries : UInt32
  table : ℕ → List (Hashent E)

namespace HashTable

variable {E : Type}

/-- The shift up to `elems`. -/
def shiftUp (elems : ℕ) : ℕ → ℕ → ℕ
  | 0, real => real
  | n + 1, real => if real < elems then shiftUp elems n (real * 2) else real

/-- The number of buckets for a request of `elems`. -/
def realElems (elems : UInt32) : ℕ :=
  let real := shiftUp elems.toNat 25 0x80
  if elems.toNat < real then real / 2 else real

/-- `create_hash_table`; nothing for `NULL`. -/
def create (elems : UInt32) : Option (HashTable E) :=
  if 2 ^ 31 < elems.toNat then none
  else some { size := UInt32.ofNat (realElems elems), entries := 0, table := fun _ => [] }

/-- Everything that is shared by the calls on one table: how it was created and what is in memory.
-/
structure Env (E : Type) extends TableConf where
  /-- The bytes of the structure at an entry's address. -/
  mem : E → Memory

namespace Env

/-- The bytes of an entry's key. -/
def key (env : Env E) (e : E) : Memory := fun i => env.mem e (env.keyoffset + i)

/-- The bucket of a key in a table of `size` buckets. -/
def bucket (env : Env E) (size : UInt32) (key : Memory) : UInt32 :=
  env.keyHash key &&& (size - 1)

end Env

/-- Put an entry into its bucket and count it. -/
def place (env : Env E) (t : HashTable E) (e : E) : Option (HashTable E) :=
  let hash := env.bucket t.size (env.key e)
  if hash < t.size then
    let hep : Hashent E := { ent := e, hv := hash }
    let old := t.table hash.toNat
    some { t with
      entries := t.entries + 1
      table := Function.update t.table hash.toNat
        (if env.inserttail then old ++ [hep] else hep :: old) }
  else none

/-- Are there 1.2 times as many entries as buckets, or more? -/
def crowded (t : HashTable E) : Bool :=
  t.size * 6 / 5 ≤ t.entries

/-- The entries that `resize_hash_table` takes over. It counts the old buckets with an `int`. -/
def taken (t : HashTable E) : List E :=
  ((List.range (if t.size.toNat < 2 ^ 31 then t.size.toNat else 0)).flatMap t.table).map (·.ent)

/-- `resize_hash_table`, with the function that inserts. -/
def resize (insert : HashTable E → E → Option (HashTable E)) (t : HashTable E) (elems : UInt32) :
    Option (HashTable E) :=
  t.taken.foldlM insert { size := elems, entries := 0, table := fun _ => [] }

/-- `hash_insert`, `fuel` deep: each resize within a resize doubles the size, and a table without
buckets takes nothing. -/
def insertFuel (env : Env E) : ℕ → HashTable E → E → Option (HashTable E)
  | 0, _, _ => none
  | fuel + 1, t, e =>
    (t.place env e).bind fun t' =>
      if t'.crowded then resize (insertFuel env fuel) t' (t'.size * 2) else some t'

/-- `hash_insert` -/
def insert (env : Env E) (t : HashTable E) (e : E) : Option (HashTable E) :=
  insertFuel env 33 t e

/-- `hash_delete` -/
def delete [DecidableEq E] (env : Env E) (t : HashTable E) (e : E) : Option (HashTable E) :=
  let hash := env.bucket t.size (env.key e)
  if hash < t.size then
    let old := t.table hash.toNat
    if old.any (·.ent = e) then
      some { t with
        entries := t.entries - 1
        table := Function.update t.table hash.toNat (old.eraseP (·.ent = e)) }
    else some t
  else none

/-- Does the table's comparison equate an entry with a key? -/
def equates (env : Env E) (e : E) (key : Memory) : Bool :=
  env.cmp (env.key e) key env.keylen = 0

/-- `hash_find`: the entry found, if any; nothing for a bucket that is not there. -/
def find (env : Env E) (t : HashTable E) (key : Memory) : Option (Option E) :=
  let hash := env.bucket t.size key
  if hash < t.size then
    some (((t.table hash.toNat).find? fun hep => hep.hv = hash && equates env hep.ent key).map
      (·.ent))
  else none

end HashTable

end Ithildin
