import Mathlib.Data.List.TakeWhile

/-!
# Bytes and C strings

* `Bytes`: a run of bytes; `bytes` reads an ASCII literal;
* `isSpace`: `isspace` of the C locale; `colon`, `dot` and others: bytes with a name;
* `SERVLEN`, `USERLEN`, `HOSTLEN`: lengths of `ircd.h`;
* `strAt`, `cString`: the string that starts at an address, and the one a char array holds;
* `strncpy`: the bytes `strncpy` stores.
-/

namespace Ithildin

/-- A run of bytes. -/
abbrev Bytes := List UInt8

/-- The bytes of an ASCII literal. -/
def bytes (s : String) : Bytes := s.toList.map fun c => c.toNat.toUInt8

/-- `isspace`: HT, LF, VT, FF, CR and the blank. -/
def isSpace (c : UInt8) : Bool := (9 ≤ c && c ≤ 13) || c == 32

/-- The byte `':'`. -/
def colon : UInt8 := 58

/-- The byte `'.'`. -/
def dot : UInt8 := 46

/-- The bytes `'+'`, `'-'`, `'!'`, `'@'`, `','` and the blank. -/
def plusSign : UInt8 := 43
def minusSign : UInt8 := 45
def bangSign : UInt8 := 33
def atSign : UInt8 := 64
def commaSign : UInt8 := 44
def blank : UInt8 := 32

/-- The length of a server's name, `SERVLEN`. -/
def SERVLEN : ℕ := 63

def USERLEN : ℕ := 10
def HOSTLEN : ℕ := 63

@[simp] theorem isSpace_zero : isSpace 0 = false := rfl

/-- What holds of each of the 256 bytes holds of every byte. -/
theorem forall_byte {p : UInt8 → Prop} (h : ∀ n < 256, p (UInt8.ofNat n)) (c : UInt8) : p c := by
  have hc := h c.toNat c.toNat_lt
  rwa [UInt8.ofNat_toNat] at hc

theorem takeWhile_ne_append {c : UInt8} {s : Bytes} (h : c ∉ s) (r : Bytes) :
    (s ++ c :: r).takeWhile (· != c) = s := by
  induction s with
  | nil => simp
  | cons d s ih =>
    obtain ⟨hd, hs⟩ : c ≠ d ∧ c ∉ s := by simpa using h
    simp [Ne.symm hd, ih hs]

/-! ### Strings in memory -/

/-- The bytes of memory up to the first NUL. -/
def strAt (mem : Bytes) : Bytes := mem.takeWhile (· != 0)

/-- The string a char array holds; `none` when no NUL ends it inside the array. -/
def cString (a : Bytes) : Option Bytes := if 0 ∈ a then some (strAt a) else none

/-- The `n` bytes that `strncpy(dst, src, n)` stores: the string cut at `n` bytes, or padded
with NULs up to them. -/
def strncpy (n : ℕ) (src : Bytes) : Bytes := src.take n ++ List.replicate (n - src.length) 0

/-- A string of nonzero bytes. -/
def IsText (s : Bytes) : Prop := 0 ∉ s

instance (s : Bytes) : Decidable (IsText s) := inferInstanceAs (Decidable (0 ∉ s))

@[simp] theorem isText_cons {c : UInt8} {s : Bytes} :
    IsText (c :: s) ↔ c ≠ 0 ∧ IsText s := by
  simp [IsText, eq_comm]

theorem isText_append {s t : Bytes} : IsText (s ++ t) ↔ IsText s ∧ IsText t := by
  simp only [IsText, List.mem_append, not_or]

theorem isText_take {s : Bytes} (h : IsText s) (n : ℕ) : IsText (s.take n) :=
  fun h0 => h (List.mem_of_mem_take h0)

theorem strncpy_of_length_le {n : ℕ} {src : Bytes} (h : src.length ≤ n) :
    strncpy n src = src ++ List.replicate (n - src.length) 0 := by
  rw [strncpy, List.take_of_length_le h]

theorem strncpy_of_le_length {n : ℕ} {src : Bytes} (h : n ≤ src.length) :
    strncpy n src = src.take n := by
  rw [strncpy, Nat.sub_eq_zero_of_le h, List.replicate_zero, List.append_nil]

@[simp] theorem length_strncpy (n : ℕ) (src : Bytes) : (strncpy n src).length = n := by
  simp only [strncpy, List.length_append, List.length_take, List.length_replicate]
  omega

@[simp] theorem strAt_zero (r : Bytes) : strAt (0 :: r) = [] := rfl

theorem strAt_cons {c : UInt8} (h : c ≠ 0) (r : Bytes) : strAt (c :: r) = c :: strAt r := by
  simp [strAt, h]

theorem isText_strAt (mem : Bytes) : IsText (strAt mem) := by
  intro h
  simpa using List.mem_takeWhile_imp h

theorem strAt_text_append {s : Bytes} (h : IsText s) (r : Bytes) :
    strAt (s ++ r) = s ++ strAt r := by
  induction s with
  | nil => rfl
  | cons c s ih =>
    obtain ⟨hc, hs⟩ := isText_cons.1 h
    rw [List.cons_append, strAt_cons hc, ih hs, List.cons_append]

theorem strAt_append {s : Bytes} (h : IsText s) (r : Bytes) : strAt (s ++ 0 :: r) = s := by
  rw [strAt_text_append h, strAt_zero, List.append_nil]

theorem strAt_of_isText {s : Bytes} (h : IsText s) : strAt s = s := by
  have hall := strAt_text_append h []
  rwa [List.append_nil, show strAt [] = [] from rfl, List.append_nil] at hall

/-- Memory that contains a NUL is a string, its terminator and a rest. -/
theorem exists_strAt {mem : Bytes} (h : 0 ∈ mem) : ∃ r, mem = strAt mem ++ 0 :: r := by
  induction mem with
  | nil => simp at h
  | cons c mem ih =>
    by_cases hc : c = 0
    · exact ⟨mem, by simp [hc]⟩
    · obtain ⟨r, hr⟩ := ih (by simpa [Ne.symm hc] using h)
      refine ⟨r, ?_⟩
      rw [strAt_cons hc, List.cons_append, ← hr]

/-- An array holds a string exactly when it starts with the string and its NUL. -/
theorem cString_eq_some {a s : Bytes} :
    cString a = some s ↔ IsText s ∧ ∃ r, a = s ++ 0 :: r := by
  constructor
  · intro h
    obtain ⟨ha, rfl⟩ : 0 ∈ a ∧ strAt a = s := by simpa [cString] using h
    exact ⟨isText_strAt a, exists_strAt ha⟩
  · rintro ⟨hs, r, rfl⟩
    simp [cString, strAt_append hs]

end Ithildin
