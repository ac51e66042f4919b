import Ithildin.Services.Database

/-!
# The lines of the database

What is read of the lines that are written: of numbers what is printed, of words the words, and of a
text at the end of a line all but the carriage returns at its end.
-/

namespace Ithildin

/-! ### Numbers -/

/-- What may follow a number: a blank, or nothing. -/
def Ends (rest : Bytes) : Prop := rest = [] ∨ ∃ r, rest = blank :: r

variable {rest : Bytes}

theorem digitOf_blank (base : ℕ) : digitOf base blank = none := rfl

theorem Ends.digitsFrom (h : Ends rest) (base acc : ℕ) : digitsFrom base acc rest = acc := by
  rcases h with rfl | ⟨r, rfl⟩
  · rfl
  · rw [Ithildin.digitsFrom, digitOf_blank]

theorem Ends.dropWhile (h : Ends rest) (base : ℕ) :
    rest.dropWhile (fun d => (digitOf base d).isSome) = rest := by
  rcases h with rfl | ⟨r, rfl⟩
  · rfl
  · rw [List.dropWhile_cons_of_neg]
    rw [digitOf_blank]
    decide

theorem itoaLoop_append (n i : ℕ) (acc rest : Bytes) :
    itoaLoop n i (acc ++ rest) = itoaLoop n i acc ++ rest := by
  induction n generalizing i acc with
  | zero => rfl
  | succ n ih =>
    rw [itoaLoop, itoaLoop]
    split
    · rfl
    · exact ih (i / 10) ((48 + i % 10).toUInt8 :: acc)

theorem itoa_append (i : ℕ) (rest : Bytes) : itoa i ++ rest = itoaLoop 20 i rest :=
  (itoaLoop_append 20 i [] rest).symm

theorem isSome_digitOf {c : UInt8} (hlow : 48 ≤ c.toNat) (hhigh : c.toNat ≤ 57) :
    (digitOf 10 c).isSome = true := by
  obtain ⟨d, hd, rfl⟩ : ∃ d < 10, c = (48 + d).toUInt8 := by
    refine ⟨c.toNat - 48, by omega, ?_⟩
    rw [Nat.add_sub_cancel' hlow]
    exact (UInt8.ofNat_toNat).symm
  rw [digitOf_digit hd]
  rfl

theorem digit_of_mem_itoa {i : ℕ} {c : UInt8} (h : c ∈ itoa i) : 48 ≤ c.toNat ∧ c.toNat ≤ 57 :=
  (digit_of_mem_itoaLoop h).resolve_left List.not_mem_nil

/-- Digits that do not show base sixteen. -/
theorem readDigits_eq {showsBase : Bool} {s : Bytes} {base : ℕ}
    (hhex : s.head? = some 48 → s.tail.head? ≠ some 120 ∧ s.tail.head? ≠ some 88)
    (hbase : (if showsBase ∧ s.head? = some 48 then 8 else 10) = base)
    (hdigit : (s.head?.any fun d => (digitOf base d).isSome) = true) :
    readDigits showsBase s =
      some (digitsFrom base 0 s, s.dropWhile fun d => (digitOf base d).isSome) := by
  have hnot : ¬ (showsBase ∧ s.head? = some 48 ∧ (s.tail.head? = some 120 ∨
      s.tail.head? = some 88) ∧ (s.tail.tail.head?.any fun d => (digitOf 16 d).isSome)) := by
    rintro ⟨-, hzero, hx | hx, -⟩
    · exact (hhex hzero).1 hx
    · exact (hhex hzero).2 hx
  rw [readDigits]
  simp only [if_neg hnot, hbase, if_pos hdigit]

/-- The digits of a number are read back. -/
theorem readDigits_itoa (showsBase : Bool) {i : ℕ} (hi : i < 10 ^ 20) (h : Ends rest) :
    readDigits showsBase (itoa i ++ rest) = some (i, rest) := by
  rcases Nat.eq_zero_or_pos i with rfl | hpos
  · -- a zero shows base eight
    have hzero : itoa 0 ++ rest = 48 :: rest := rfl
    have hread : ∀ base, digitOf base 48 = some 0 →
        (digitsFrom base 0 (48 :: rest), (48 :: rest).dropWhile fun d => (digitOf base d).isSome) =
          (0, rest) := by
      intro base hbase
      rw [digitsFrom, hbase, List.dropWhile_cons_of_pos (by rw [hbase]; rfl), h.dropWhile]
      dsimp only
      rw [h.digitsFrom, Nat.zero_mul]
    obtain ⟨base, hbase, hdigit⟩ : ∃ base,
        (if showsBase ∧ (48 :: rest).head? = some 48 then 8 else 10) = base ∧
          digitOf base 48 = some 0 := by
      refine ⟨_, rfl, ?_⟩
      split <;> decide
    rw [hzero, readDigits_eq (fun _ => ?_) hbase
      (by rw [List.head?_cons, Option.any_some, hdigit]; rfl), hread base hdigit]
    rcases h with rfl | ⟨r, rfl⟩
    · simp
    · simp [blank]
  · obtain ⟨c, r, hcons, hlow, hhigh⟩ := exists_itoaLoop_eq_cons hi hpos []
    have hcons : itoa i = c :: r := hcons
    have hne : ¬ (c :: (r ++ rest)).head? = some 48 := by
      rw [List.head?_cons, Option.some.injEq]
      rintro rfl
      exact absurd hlow (by decide)
    have hdigits : digitsFrom 10 0 (c :: (r ++ rest)) = i := by
      rw [← List.cons_append, ← hcons, itoa_append, digitsFrom_itoaLoop hi, h.digitsFrom]
    have hdrop : (c :: (r ++ rest)).dropWhile (fun d => (digitOf 10 d).isSome) = rest := by
      rw [← List.cons_append, ← hcons, List.dropWhile_append_of_pos, h.dropWhile]
      intro d hd
      obtain ⟨hlow, hhigh⟩ := digit_of_mem_itoa hd
      exact isSome_digitOf hlow hhigh
    rw [hcons, List.cons_append, readDigits_eq (fun hzero => absurd hzero hne)
      (if_neg fun hoct => hne hoct.2), hdigits, hdrop]
    exact isSome_digitOf (by omega) hhigh

/-- A number is read back. -/
theorem readLong_fprintfLong (showsBase : Bool) {i : ℤ} (hlow : -9223372036854775808 ≤ i)
    (hhigh : i ≤ 9223372036854775807) (h : Ends rest) :
    readLong showsBase (fprintfLong i ++ rest) = (i, rest) := by
  have hread := readDigits_itoa showsBase (i := i.natAbs) (by omega) h
  rw [fprintfLong]
  split
  · rename_i hneg
    rw [List.cons_append, readLong, List.dropWhile_cons_of_neg (by decide)]
    rw [List.head?_cons, if_pos (.inl rfl), List.tail_cons, hread]
    dsimp only
    rw [if_pos (decide_eq_true rfl)]
    congr 1
    omega
  · rename_i hneg
    obtain ⟨c, r, hcons, hclow, hchigh⟩ := exists_itoa_eq_cons (i := i.natAbs) (by omega)
    have hspace := isSpace_of_digit hclow
    have hsign := not_sign_of_digit hclow
    have hhead : ((c :: r) ++ rest).head? = some c := rfl
    have hnot : ¬ (some c = some 45 ∨ some c = some 43) := by simp [hsign]
    rw [hcons] at hread ⊢
    rw [readLong, List.cons_append, List.dropWhile_cons_of_neg (by rw [hspace]; decide),
      ← List.cons_append]
    rw [hhead, if_neg hnot, hread]
    dsimp only
    rw [if_neg (by simp [hsign])]
    congr 1
    omega

/-! ### Fields -/

theorem cutField_append {w : Bytes} (h : blank ∉ w) (rest : Bytes) :
    cutField (w ++ blank :: rest) = some (w, rest) := by
  rw [cutField, behindByte_append h, takeWhile_ne_append h]
  rfl

theorem cutNumber_append {i : ℤ} (hlow : -9223372036854775808 ≤ i)
    (hhigh : i ≤ 9223372036854775807) (rest : Bytes) :
    cutNumber (fprintfLong i ++ blank :: rest) = some (i, rest) := by
  rw [cutNumber, readLong_fprintfLong true hlow hhigh (.inr ⟨rest, rfl⟩)]

theorem toInt32_bounds (t : ℤ) : -2147483648 ≤ toInt32 t ∧ toInt32 t < 2147483648 := by
  rw [toInt32]
  have hlow := Int.le_bmod (x := t) (m := 4294967296) (by decide)
  have hhigh := Int.bmod_lt (x := t) (m := 4294967296) (by decide)
  omega

theorem cutNumber_int (t : ℤ) (rest : Bytes) :
    cutNumber (fprintfInt t ++ blank :: rest) = some (toInt32 t, rest) := by
  obtain ⟨hlow, hhigh⟩ := toInt32_bounds t
  exact cutNumber_append (by omega) (by omega) rest

theorem bounds_toInt (x : BitVec 64) :
    -9223372036854775808 ≤ x.toInt ∧ x.toInt ≤ 9223372036854775807 := by
  have hlow := BitVec.le_toInt x
  have hhigh := BitVec.toInt_lt (x := x)
  omega

/-! ### Lines -/

/-- A text without the ends of line at its end. -/
def stripped (s : Bytes) : Bytes := s.rdropWhile isLineEnd

theorem stripped_append {w s : Bytes} {c : UInt8} (hc : isLineEnd c = false) :
    stripped (w ++ c :: s) = w ++ c :: stripped s := by
  induction s using List.reverseRecOn with
  | nil => rw [stripped, List.rdropWhile_concat_neg _ _ _ (by rw [hc]; decide)]; rfl
  | append_singleton s d ih =>
    have hassoc : w ++ c :: (s ++ [d]) = (w ++ c :: s) ++ [d] := by simp
    rw [stripped, stripped, hassoc]
    by_cases hd : isLineEnd d = true
    · rw [List.rdropWhile_concat_pos _ _ _ hd, List.rdropWhile_concat_pos _ _ _ hd]
      exact ih
    · rw [List.rdropWhile_concat_neg _ _ _ hd, List.rdropWhile_concat_neg _ _ _ hd, ← hassoc]

theorem stripped_newline (s : Bytes) : stripped (s ++ [newline]) = stripped s :=
  List.rdropWhile_concat_pos _ _ _ (by decide)

theorem fgets_line {n : ℕ} {line : Bytes} (hline : newline ∉ line) (hlen : line.length < n)
    (file : Bytes) : fgets n (endLine line ++ file) = (endLine line, file) := by
  induction line generalizing n with
  | nil =>
    cases n with
    | zero => cases hlen
    | succ n =>
      rw [endLine, List.nil_append, List.singleton_append, fgets, if_pos rfl]
  | cons c line ih =>
    cases n with
    | zero => cases hlen
    | succ n =>
      have hrest := ih (n := n) (List.not_mem_of_not_mem_cons hline) (Nat.lt_of_succ_lt_succ hlen)
      rw [endLine] at hrest ⊢
      rw [List.cons_append, List.cons_append, fgets,
        if_neg (List.ne_of_not_mem_cons hline).symm, hrest]

/-- The lines of a file are read, without the ends of line at their ends. -/
theorem fileLines_flatMap {size n : ℕ} {lines : List Bytes}
    (h : ∀ line ∈ lines, newline ∉ line ∧ line.length + 1 < size) (hn : lines.length ≤ n) :
    fileLines size n (lines.flatMap endLine) = lines.map stripped := by
  induction lines generalizing n with
  | nil =>
    cases n <;> rfl
  | cons line lines ih =>
    cases n with
    | zero => cases hn
    | succ n =>
      obtain ⟨hline, hlen⟩ := h line List.mem_cons_self
      have hget : sfgets size (endLine line ++ lines.flatMap endLine) =
          (stripped line, lines.flatMap endLine) := by
        rw [sfgets, fgets_line hline (by omega)]
        exact congrArg (·, _) (stripped_newline line)
      have hne : endLine line ++ lines.flatMap endLine ≠ [] := by simp [endLine]
      rw [List.flatMap_cons, fileLines, hget, List.map_cons]
      · dsimp only
        rw [ih (fun l hl => h l (List.mem_cons_of_mem _ hl)) (Nat.le_of_succ_le_succ hn)]
      · exact hne

theorem stripped_of_forall {s : Bytes} (h : ∀ c ∈ s, isLineEnd c = false) : stripped s = s := by
  rw [stripped, List.rdropWhile_eq_self_iff]
  intro hne
  rw [h _ (List.getLast_mem hne)]
  decide

/-- What a number is printed with. -/
theorem mem_fprintfLong {i : ℤ} {c : UInt8} (h : c ∈ fprintfLong i) :
    isLineEnd c = false ∧ c ≠ blank ∧ c ≠ newline := by
  have hdigit : ∀ {c : UInt8}, 48 ≤ c.toNat → isLineEnd c = false ∧ c ≠ blank ∧ c ≠ newline := by
    intro c hlow
    have hne : ∀ d : UInt8, d.toNat < 48 → c ≠ d := by
      rintro d hd rfl
      omega
    refine ⟨?_, hne _ (by decide), hne _ (by decide)⟩
    rw [isLineEnd, Bool.or_eq_false_iff, beq_eq_false_iff_ne, beq_eq_false_iff_ne]
    exact ⟨hne _ (by decide), hne _ (by decide)⟩
  rw [fprintfLong] at h
  split at h
  · rcases List.mem_cons.mp h with rfl | h
    · decide
    · exact hdigit (digit_of_mem_itoa h).1
  · exact hdigit (digit_of_mem_itoa h).1

theorem length_fprintfLong_le (i : ℤ) : (fprintfLong i).length ≤ 21 := by
  have hlen : (itoa i.natAbs).length ≤ 20 := length_itoaLoop_le 20 i.natAbs []
  rw [fprintfLong]
  split
  · rw [List.length_cons]
    omega
  · omega

theorem strcpyInto_of_le {n : ℕ} {s : Bytes} (h : s.length ≤ n) : strcpyInto (n + 1) s = some s :=
  if_pos (Nat.lt_succ_of_le h)

end Ithildin
