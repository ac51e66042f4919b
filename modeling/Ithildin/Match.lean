import Ithildin.CString

/-!
# Matching of names against masks

`match` of `string.c` and the two case tables.

* `toLower`, `toUpper`: `tolowertab` and `touppertab`;
* `stringMatch`: `match`, with its bound on the depth of the recursion.
-/

namespace Ithildin

/-- `tolowertab`. -/
def toLower (c : UInt8) : UInt8 := if 65 ≤ c ∧ c ≤ 90 then c + 32 else c

theorem toLower_eq_zero {c : UInt8} : toLower c = 0 ↔ c = 0 := by
  rw [toLower]
  split
  · rename_i hc
    have hle : 65 ≤ c.toNat := UInt8.le_iff_toNat_le.mp hc.1
    have hge : c.toNat ≤ 90 := UInt8.le_iff_toNat_le.mp hc.2
    have hsum : (c + 32).toNat = c.toNat + 32 := by
      rw [UInt8.toNat_add]
      exact Nat.mod_eq_of_lt (by change c.toNat + 32 < 256; omega)
    constructor
    · intro h
      rw [h] at hsum
      change 0 = _ at hsum
      omega
    · rintro rfl
      change 65 ≤ 0 at hle
      omega
  · exact Iff.rfl

/-- `strcasecmp` finds no difference. -/
def sameCase (s t : Bytes) : Bool := s.map toLower == t.map toLower

theorem sameCase_iff {s t : Bytes} : sameCase s t = true ↔ s.map toLower = t.map toLower :=
  beq_iff_eq

/-- `touppertab`, as it stands: `'H'` and `'T'` are in lower case there, and so is `'j'`. -/
def toUpper (c : UInt8) : UInt8 :=
  if c = 72 ∨ c = 84 then c + 32
  else if c = 106 then c
  else if 97 ≤ c ∧ c ≤ 122 then c - 32
  else c

/-- `MAX_MATCH_DEPTH`. -/
def MAX_MATCH_DEPTH : ℕ := 12

/-- The byte `'*'`. -/
def star : UInt8 := 42

/-- The byte `'?'`. -/
def question : UInt8 := 63

/-- `while (*wild == '?' && *string)`: each `'?'` takes one byte. -/
def swallow : Bytes → Bytes → Bytes × Bytes
  | c :: wild, x :: string => if c = question then swallow wild string else (c :: wild, x :: string)
  | wild, string => (wild, string)

/-- `while (*string)`: some byte equal to `c` from which the rest matches. -/
def scanFor (deeper : Bytes → Bytes → Bool) (c : UInt8) (wild : Bytes) : Bytes → Bool
  | [] => false
  | x :: string => (toUpper x == toUpper c && deeper wild string) || scanFor deeper c wild string

/-- The loop of `_match`; every round shortens the mask, so `wild.length + 1` rounds suffice. -/
def matchLoop (deeper : Bytes → Bytes → Bool) : ℕ → Bytes → Bytes → Bool
  | 0, _, _ => false
  | _ + 1, [], string => string.isEmpty
  | n + 1, c :: wild, string =>
      if c = star then
        match swallow (wild.dropWhile (· == star)) string with
        | ([], _) => true
        | (d :: wild, string) =>
            if d = star then matchLoop deeper n (d :: wild) string
            else scanFor deeper d wild string
      else
        match string with
        | [] => false
        | x :: string =>
            if c ≠ question ∧ toUpper x ≠ toUpper c then false else matchLoop deeper n wild string

/-- `_match`, with this many levels of recursion left. -/
def matchDepth : ℕ → Bytes → Bytes → Bool
  | 0, _, _ => false
  | depth + 1, wild, string => matchLoop (matchDepth depth) (wild.length + 1) wild string

/-- `match`. -/
def stringMatch (wild string : Bytes) : Bool :=
  wild == [star] || matchDepth MAX_MATCH_DEPTH wild string

end Ithildin
