import Ithildin.Protocol.Parse
import Mathlib.Tactic.Common

/-!
# When `packet_parse` tokenises a line as RFC 1459 says

While the parser is inside its line, the memory from its pointer on is what is left of the line,
the NUL and whatever lies behind (`At`).  Every loop keeps this, so the parser is followed over
the text of the line alone.

* `At` and its step lemmas, one for each thing done with the pointer;
* `parseArgs_at`: the copying loop fills the slots with the raw fields of the line;
* `slots_hold_iff`: when those slots hold the fields meant;
* `Tokenises`: the lines that are tokenised as meant;
* `packetParse_behind`: the memory behind the line stays as it was.
-/

namespace Ithildin

open Tokens

theorem IsText.of_suffix {s l : Bytes} (h : IsText l) (hs : s <:+ l) : IsText s :=
  fun h0 => h (hs.subset h0)

theorem IsText.ne_zero {l : Bytes} (h : IsText l) {c : UInt8} (hc : c ∈ l) : c ≠ 0 := by
  rintro rfl
  exact h hc

theorem IsText.word {l : Bytes} (h : IsText l) : IsText (word isSpace l) :=
  fun h0 => h ((List.takeWhile_prefix _).subset h0)

theorem IsText.afterWord {l : Bytes} (h : IsText l) : IsText (afterWord isSpace l) :=
  h.of_suffix (List.dropWhile_suffix _)

theorem IsText.trim {l : Bytes} (h : IsText l) : IsText (trim isSpace l) :=
  h.of_suffix (List.dropWhile_suffix _)

/-! ### The pointer inside its line -/

/-- Inside a line of `N` bytes: from the pointer on stand the text `l`, the terminator of the
line and the bytes behind it, and nothing further has been read. -/
structure At (N : ℕ) (behind : Bytes) (sc : Scan) (l : Bytes) : Prop where
  rest_eq : sc.rest = l ++ 0 :: behind
  pos : sc.s + l.length = N
  high_le : sc.high ≤ N + 1
  text : IsText l

namespace At

variable {N : ℕ} {behind : Bytes} {sc : Scan} {l : Bytes} {c : UInt8}

theorem start {line : Bytes} (behind : Bytes) (h : IsText line) :
    At line.length behind ⟨line ++ 0 :: behind, 0, 1⟩ line :=
  ⟨rfl, by simp, by simp, h⟩

theorem cur_nil (h : At N behind sc []) : sc.cur = 0 := by
  have := h.rest_eq
  simp only [Scan.rest, List.nil_append] at this
  simp [Scan.cur, List.getD_eq_getElem?_getD, ← List.head?_drop, this]

theorem cur_cons (h : At N behind sc (c :: l)) : sc.cur = c := by
  have := h.rest_eq
  simp only [Scan.rest, List.cons_append] at this
  simp [Scan.cur, List.getD_eq_getElem?_getD, ← List.head?_drop, this]

theorem cur_eq_zero (h : At N behind sc l) : sc.cur = 0 ↔ l = [] := by
  cases l with
  | nil => simp [h.cur_nil]
  | cons c l => simpa [h.cur_cons] using (isText_cons.1 h.text).1

theorem drop_end (h : At N behind sc l) : sc.mem.drop N = 0 :: behind := by
  rw [← h.pos, ← List.drop_drop, ← Scan.rest, h.rest_eq, List.drop_left]

/-- A loop that stops at a NUL stays inside the line. -/
theorem skip {p : UInt8 → Bool} (hp : p 0 = false) (h : At N behind sc l) :
    At N behind (sc.skip p) (l.dropWhile p) := by
  have hrun : sc.rest.takeWhile p = l.takeWhile p := by
    rw [h.rest_eq, takeWhile_append_stop hp]
  have hlen := length_takeWhile_add_dropWhile p l
  have hpos := h.pos
  refine ⟨?_, ?_, ?_, h.text.of_suffix (List.dropWhile_suffix p)⟩
  · have := h.rest_eq
    simp only [Scan.rest, Scan.skip, Scan.touch] at this ⊢
    rw [← List.drop_drop, this, takeWhile_append_stop hp,
      List.drop_append_of_le_length (by omega), drop_length_takeWhile]
  · simp only [Scan.skip, Scan.touch, hrun]
    omega
  · have := h.high_le
    simp only [Scan.skip, Scan.touch, hrun]
    omega

theorem skipWord (h : At N behind sc l) : At N behind sc.skipWord (afterWord isSpace l) := by
  have hp : l.dropWhile (fun c => !isSpace c && c != 0) = afterWord isSpace l :=
    dropWhile_congr fun c hc => by simp [h.text.ne_zero hc]
  exact hp ▸ h.skip (p := fun c => !isSpace c && c != 0) rfl

theorem skipSpace (h : At N behind sc l) : At N behind sc.skipSpace (trim isSpace l) := by
  have hp : l.dropWhile (fun c => isSpace c && c != 0) = trim isSpace l :=
    dropWhile_congr fun c hc => by simp [h.text.ne_zero hc]
  exact hp ▸ h.skip (p := fun c => isSpace c && c != 0) rfl

theorem next (h : At N behind sc (c :: l)) : At N behind sc.next l := by
  have hpos : sc.s + (l.length + 1) = N := by simpa using h.pos
  refine ⟨?_, ?_, h.high_le, (isText_cons.1 h.text).2⟩
  · have := h.rest_eq
    simp only [Scan.rest, Scan.next] at this ⊢
    rw [← List.drop_drop, this]
    rfl
  · simp only [Scan.next]
    omega

/-- `*s++ = '\0'` over a byte of the line. -/
theorem put_next (h : At N behind sc (c :: l)) : At N behind sc.put.next l := by
  obtain ⟨hrest, hpos, hhigh, htext⟩ := h.next
  refine ⟨?_, hpos, hhigh, htext⟩
  simp only [Scan.rest, Scan.next, Scan.put] at hrest ⊢
  rw [List.drop_set_of_lt (by omega), hrest]

theorem touch (h : At N behind sc l) : At N behind sc.touch l := by
  have hpos := h.pos
  have hhigh := h.high_le
  refine ⟨h.rest_eq, hpos, ?_, h.text⟩
  simp only [Scan.touch]
  omega

/-- Copying a string that starts before the terminator and ends there at the latest. -/
theorem copied {src : ℕ} (h : At N behind sc l)
    (hsrc : src + (strAt (sc.mem.drop src)).length ≤ N) : At N behind (sc.copied src) l := by
  refine ⟨h.rest_eq, h.pos, ?_, h.text⟩
  have hhigh := h.high_le
  simp only [Scan.copied]
  omega

theorem strAt_rest (h : At N behind sc l) : strAt (sc.mem.drop sc.s) = l := by
  rw [← Scan.rest, h.rest_eq, strAt_append h.text]

end At

/-! ### The copying loop -/

/-- A slot after `strncpy` of a whole string. -/
def fill (last : UInt8) (arg : Bytes) : Bytes := strncpy COMMAND_MAXARGLEN arg ++ [last]

/-- The slots from the `i`-th on after the arguments were copied into them. -/
def fillFrom (last : ℕ → UInt8) : ℕ → List Bytes → List Bytes
  | _, [] => []
  | i, arg :: args => fill (last i) arg :: fillFrom last (i + 1) args

theorem fillFrom_nil (last : ℕ → UInt8) (i : ℕ) : fillFrom last i [] = [] := rfl

theorem fillFrom_cons (last : ℕ → UInt8) (i : ℕ) (arg : Bytes) (args : List Bytes) :
    fillFrom last i (arg :: args) = fill (last i) arg :: fillFrom last (i + 1) args := rfl

/-- The pointer after one plain argument was cut off and copied. -/
def cutArg (sc : Scan) : Scan :=
  let sc1 := sc.skipWord
  if sc1.cur ≠ 0 then sc1.put.next else sc1

section
variable {N : ℕ} {behind : Bytes} {sc : Scan} {l : Bytes}

theorem At.skipWord_mem : sc.skipWord.mem = sc.mem := rfl

theorem At.skipWord_s (h : At N behind sc l) :
    sc.skipWord.s = sc.s + (word isSpace l).length := by
  have hp : l.takeWhile (fun c => !isSpace c && c != 0) = word isSpace l :=
    takeWhile_congr fun c hc => by simp [h.text.ne_zero hc]
  rw [← hp]
  simp only [Scan.skipWord, Scan.skip, Scan.touch, h.rest_eq]
  rw [takeWhile_append_stop rfl]

/-- Putting a NUL at the end of a word leaves the word as a string where it started. -/
theorem At.strAt_put (h : At N behind sc l) :
    strAt (sc.skipWord.put.mem.drop sc.s) = word isSpace l := by
  obtain ⟨d, r, hsplit⟩ : ∃ d r, l ++ 0 :: behind = word isSpace l ++ d :: r := by
    have hw := word_append_afterWord isSpace l
    cases hl : afterWord isSpace l with
    | nil => exact ⟨0, behind, by rw [hl, List.append_nil] at hw; rw [hw]⟩
    | cons d r =>
      rw [hl] at hw
      exact ⟨d, r ++ 0 :: behind, by nth_rewrite 1 [← hw]; simp⟩
  have hmem : sc.skipWord.put.mem.drop sc.s = word isSpace l ++ 0 :: r := by
    have hrest : sc.mem.drop sc.s = l ++ 0 :: behind := h.rest_eq
    simp only [Scan.put, h.skipWord_s, At.skipWord_mem]
    rw [List.drop_set, if_neg (by omega), hrest, Nat.add_sub_cancel_left, hsplit]
    simp
  rw [hmem, strAt_append h.text.word]

/-- Cutting an argument off leaves it as a string where it started. -/
theorem At.strAt_cutArg (h : At N behind sc l) :
    strAt ((cutArg sc).mem.drop sc.s) = word isSpace l := by
  by_cases hcur : sc.skipWord.cur = 0
  · have hw := word_append_afterWord isSpace l
    rw [h.skipWord.cur_eq_zero.1 hcur, List.append_nil] at hw
    rw [cutArg, if_neg (by simpa using hcur), At.skipWord_mem, h.strAt_rest, hw]
  · rw [cutArg, if_pos hcur]
    exact h.strAt_put

theorem At.cutArg (h : At N behind sc l) :
    ∃ r, At N behind (cutArg sc) r ∧ trim isSpace r = trim isSpace (afterWord isSpace l) := by
  have hw := h.skipWord
  unfold Ithildin.cutArg
  cases hl : afterWord isSpace l with
  | nil =>
    rw [hl] at hw
    exact ⟨[], by rwa [if_neg (by simp [hw.cur_nil])], rfl⟩
  | cons d r =>
    rw [hl] at hw
    refine ⟨r, ?_, by simp [trim, sep_head_afterWord hl]⟩
    rw [if_pos (by simpa [hw.cur_cons] using (isText_cons.1 hw.text).1)]
    exact hw.put_next

/-- One round of the loop: the argument is in its slot, the pointer at the next field. -/
theorem At.round (h : At N behind sc l) (last : UInt8) :
    (Ithildin.cutArg sc).slot sc.s last = fill last (word isSpace l) ∧
      At N behind ((Ithildin.cutArg sc).copied sc.s).skipSpace
        (trim isSpace (afterWord isSpace l)) := by
  obtain ⟨r, hr, htrim⟩ := h.cutArg
  refine ⟨by rw [Scan.slot, h.strAt_cutArg, fill], ?_⟩
  have hlen := congrArg List.length (word_append_afterWord isSpace l)
  have hpos := h.pos
  rw [List.length_append] at hlen
  rw [← htrim]
  exact (hr.copied (by rw [h.strAt_cutArg]; omega)).skipSpace

theorem argLoop_colon (last : ℕ → UInt8) (n i : ℕ) (argv : List Bytes) (h : sc.cur = colon) :
    argLoop last (n + 1) i sc argv =
      (i, (sc.touch.copied (sc.s + 1)).put, argv ++ [sc.slot (sc.s + 1) (last i)]) :=
  if_pos h

theorem argLoop_plain (last : ℕ → UInt8) (n i : ℕ) (argv : List Bytes) (h : sc.cur ≠ colon) :
    argLoop last (n + 1) i sc argv =
      let sc' := ((Ithildin.cutArg sc).copied sc.s).skipSpace
      let argv' := argv ++ [(Ithildin.cutArg sc).slot sc.s (last i)]
      if sc'.cur = 0 then (i, sc', argv') else argLoop last n (i + 1) sc' argv' :=
  if_neg h

theorem Scan.cur_put (sc : Scan) : sc.put.cur = 0 := by
  simp only [Scan.cur, Scan.put, List.getD_eq_getElem?_getD, List.getElem?_set_self']
  cases sc.mem[sc.s]? <;> rfl

/-- Through with a line of `N` bytes: its terminator and the bytes behind it are as they were,
and nothing behind it has been read. -/
structure Done (N : ℕ) (behind : Bytes) (sc : Scan) : Prop where
  s_le : sc.s ≤ N
  drop_end : sc.mem.drop N = 0 :: behind
  high_le : sc.high ≤ N + 1

theorem At.done (h : At N behind sc l) : Done N behind sc :=
  ⟨by have := h.pos; omega, h.drop_end, h.high_le⟩

theorem Done.touch (h : Done N behind sc) : Done N behind sc.touch := by
  obtain ⟨hs, hdrop, hhigh⟩ := h
  exact ⟨hs, hdrop, by simp only [Scan.touch]; omega⟩

/-- The whole loop, from the `i`-th slot on.  Either it stopped at the end of the line with every
field copied, or it ran out of rounds and the last field is still to be copied. -/
theorem argLoop_at (last : ℕ → UInt8) {n : ℕ} {c : UInt8} (i : ℕ) (argv : List Bytes)
    (h : At N behind sc (c :: l)) :
    ∃ i' sc' argv', argLoop last n i sc argv = (i', sc', argv') ∧
      (sc'.cur = 0 ∧ Done N behind sc' ∧
          argv' = argv ++ fillFrom last i (fieldsRaw isSpace colon n (c :: l)) ∨
        ∃ d r, At N behind sc' (d :: r) ∧ i' = i + n ∧
          argv' ++ [fill (last i') (d :: r)] =
            argv ++ fillFrom last i (fieldsRaw isSpace colon n (c :: l))) := by
  induction n generalizing sc c l i argv with
  | zero => exact ⟨i, sc, argv, rfl, .inr ⟨c, l, h, rfl, rfl⟩⟩
  | succ n ih =>
    by_cases hc : c = colon
    · -- the rest of the line goes into one slot, and a NUL over its lead letter ends the loop
      subst hc
      have hcopy : strAt (sc.mem.drop (sc.s + 1)) = l := h.next.strAt_rest
      have hpos : sc.s + (l.length + 1) = N := by simpa using h.pos
      have hhigh := h.high_le
      refine ⟨_, _, _, argLoop_colon _ _ _ _ h.cur_cons,
        .inl ⟨Scan.cur_put _, ⟨?_, ?_, ?_⟩, ?_⟩⟩
      · simp only [Scan.put, Scan.copied, Scan.touch]
        omega
      · simp only [Scan.put, Scan.copied, Scan.touch]
        rw [List.drop_set_of_lt (by omega), h.drop_end]
      · simp only [Scan.put, Scan.copied, Scan.touch, hcopy]
        omega
      · simp [fieldsRaw_succ, fillFrom_cons, fillFrom_nil, fill, Scan.slot, hcopy]
    · obtain ⟨hslot, hround⟩ := h.round (last i)
      have hraw : fieldsRaw isSpace colon (n + 1) (c :: l) =
          word isSpace (c :: l) ::
            fieldsRaw isSpace colon n (trim isSpace (afterWord isSpace (c :: l))) := by
        rw [fieldsRaw_succ, if_neg hc]
      rw [argLoop_plain _ _ _ _ (by rwa [h.cur_cons]), hslot, hraw, fillFrom_cons]
      cases hrest : trim isSpace (afterWord isSpace (c :: l)) with
      | nil =>
        rw [hrest] at hround
        exact ⟨_, _, _, if_pos hround.cur_nil,
          .inl ⟨hround.cur_nil, hround.done, by simp [fillFrom_nil]⟩⟩
      | cons d r =>
        rw [hrest] at hround
        rw [if_neg (by rw [hround.cur_eq_zero]; simp)]
        simpa [Nat.add_assoc, Nat.add_comm 1 n] using
          ih (i + 1) (argv ++ [fill (last i) (word isSpace (c :: l))]) hround

/-- The slots filled are those of the raw fields, and the parser stays inside the line. -/
theorem parseArgs_at (last : ℕ → UInt8) {c : UInt8} (h : At N behind sc (c :: l)) :
    ∃ sc', parseArgs last sc =
        (fillFrom last 0 (fieldsRaw isSpace colon (RFC1459_MAXARGS - 1) (c :: l)), sc') ∧
      Done N behind sc' := by
  obtain ⟨i, sc', argv, hres, hloop⟩ := argLoop_at last (n := RFC1459_MAXARGS - 1) 0 [] h
  unfold parseArgs
  simp only [hres]
  rcases hloop with ⟨hcur, hdone, hargv⟩ | ⟨d, r, hat, hi, hargv⟩
  · exact ⟨sc'.touch, by rw [if_neg (by simp [hcur])]; simp [hargv], hdone.touch⟩
  · have hd : d ≠ 0 := (isText_cons.1 hat.text).1
    rw [if_pos ⟨by rwa [hat.cur_cons], by omega⟩, Scan.slot, hat.strAt_rest]
    refine ⟨_, by rw [← fill, hargv]; rfl, (hat.touch.copied ?_).done⟩
    rw [show strAt (sc'.touch.mem.drop sc'.s) = d :: r from hat.strAt_rest]
    exact hat.pos.le

end

/-! ### What the slots hold -/

/-- The string fits a slot whose last byte is `last`. -/
def Fits (last : UInt8) (arg : Bytes) : Prop :=
  arg.length < COMMAND_MAXARGLEN ∨ arg.length = COMMAND_MAXARGLEN ∧ last = 0

theorem fill_of_le {last : UInt8} {arg : Bytes} (h : arg.length ≤ COMMAND_MAXARGLEN) :
    fill last arg = arg ++ (List.replicate (COMMAND_MAXARGLEN - arg.length) 0 ++ [last]) := by
  rw [fill, strncpy_of_length_le h, List.append_assoc]

theorem length_fill (last : UInt8) (arg : Bytes) :
    (fill last arg).length = COMMAND_MAXARGLEN + 1 := by
  rw [fill, List.length_append, length_strncpy, List.length_singleton]

theorem cString_fill {last : UInt8} {arg : Bytes} (h : IsText arg) :
    cString (fill last arg) = some arg ↔ Fits last arg := by
  rw [cString_eq_some, and_iff_right h]
  constructor
  · rintro ⟨r, hr⟩
    have hlen := congrArg List.length hr
    rw [length_fill, List.length_append, List.length_cons] at hlen
    rcases Nat.lt_or_ge arg.length COMMAND_MAXARGLEN with hlt | hge
    · exact .inl hlt
    · have heq : arg.length = COMMAND_MAXARGLEN := by omega
      rw [fill_of_le heq.le, List.append_cancel_left_eq] at hr
      exact .inr ⟨heq, by simpa [heq] using (List.cons_eq_cons.1 (by simpa [heq] using hr)).1⟩
  · rintro (hlt | ⟨heq, rfl⟩)
    · obtain ⟨k, hk⟩ := Nat.exists_eq_add_of_lt hlt
      refine ⟨List.replicate k 0 ++ [last], ?_⟩
      rw [fill_of_le hlt.le, show COMMAND_MAXARGLEN - arg.length = k + 1 by omega,
        List.replicate_succ, List.cons_append]
    · exact ⟨[], by simp [fill_of_le heq.le, heq]⟩

theorem eq_replicate_of_take {c : UInt8} {l : Bytes} (h : (c :: l).take l.length = l) :
    l = List.replicate l.length c := by
  induction l generalizing c with
  | nil => rfl
  | cons a l ih =>
    obtain ⟨rfl, hl⟩ := List.cons_eq_cons.1 h
    rw [List.length_cons, List.replicate_succ, ← ih hl]

/-- A slot filled with a `':'` too many holds the argument only where the cut makes up for it. -/
theorem cString_fill_colon {last : UInt8} {arg : Bytes} (h : IsText arg) :
    cString (fill last (colon :: arg)) = some arg ↔
      Fits last arg ∧ arg = List.replicate COMMAND_MAXARGLEN colon := by
  constructor
  · intro hs
    obtain ⟨-, r, hr⟩ := cString_eq_some.1 hs
    have hlen := congrArg List.length hr
    rw [length_fill, List.length_append, List.length_cons] at hlen
    have hge : COMMAND_MAXARGLEN ≤ arg.length := by
      -- a shorter text would have its own byte where the NUL has to stand
      by_contra hlt
      rw [fill_of_le (by simp only [List.length_cons]; omega)] at hr
      have hat := congrArg (fun a => a[arg.length]?) hr
      simp only [List.getElem?_append_right le_rfl, Nat.sub_self, List.getElem?_cons_zero] at hat
      rw [List.getElem?_append_left (by simp)] at hat
      have htext : IsText (colon :: arg) := isText_cons.2 ⟨by decide, h⟩
      exact htext (List.mem_of_getElem? hat)
    have heq : arg.length = COMMAND_MAXARGLEN := by omega
    have hfill : fill last (colon :: arg) = (colon :: arg).take arg.length ++ [last] := by
      simp [fill, strncpy, heq]
    rw [hfill] at hr
    obtain ⟨htake, hlast⟩ := List.append_inj hr (by simp)
    refine ⟨.inr ⟨heq, (List.cons_eq_cons.1 hlast).1⟩, ?_⟩
    rw [← heq]
    exact eq_replicate_of_take htake
  · rintro ⟨hfit, rfl⟩
    obtain rfl : last = 0 := by simpa [Fits] using hfit
    refine cString_eq_some.2 ⟨h, [], ?_⟩
    simp [fill, strncpy, ← List.replicate_succ, List.take_replicate]

/-- The fields of a line reach the command as they should: each fits its slot, and none is left
for the last slot with its `':'` on (but for the run of them that the slot cuts to the right
length). -/
def ArgsOk (last : ℕ → UInt8) (i n : ℕ) (l : Bytes) : Prop :=
  (∀ j arg, (fields isSpace colon n l)[j]? = some arg → Fits (last (i + j)) arg) ∧
    ((remainder isSpace colon n l).head? = some colon →
      (remainder isSpace colon n l).tail = List.replicate COMMAND_MAXARGLEN colon)

theorem forall_getElem?_cons {P : ℕ → Bytes → Prop} {a : Bytes} {l : List Bytes} :
    (∀ j x, (a :: l)[j]? = some x → P j x) ↔ P 0 a ∧ ∀ j x, l[j]? = some x → P (j + 1) x := by
  constructor
  · exact fun h => ⟨h 0 a rfl, fun j x hx => h (j + 1) x hx⟩
  · rintro ⟨h0, hs⟩ (_ | j) x hx
    · obtain rfl : a = x := by simpa using hx
      exact h0
    · exact hs j x (by simpa using hx)

section
variable {last : ℕ → UInt8} {i n : ℕ} {c : UInt8} {l : Bytes}

theorem argsOk_nil : ArgsOk last i n [] := by
  simp [ArgsOk, remainder_nil]

theorem argsOk_last (h : c ≠ colon) : ArgsOk last i 0 (c :: l) ↔ Fits (last i) (c :: l) := by
  simp only [ArgsOk, fields_zero, if_neg h, forall_getElem?_cons]
  simp [remainder_zero, h]

theorem argsOk_last_colon : ArgsOk last i 0 (colon :: l) ↔
    Fits (last i) l ∧ l = List.replicate COMMAND_MAXARGLEN colon := by
  simp only [ArgsOk, fields_zero, if_true, forall_getElem?_cons]
  simp [remainder_zero]

theorem argsOk_colon : ArgsOk last i (n + 1) (colon :: l) ↔ Fits (last i) l := by
  simp only [ArgsOk, fields_succ, if_true, forall_getElem?_cons]
  simp [remainder_succ]

theorem argsOk_plain (h : c ≠ colon) : ArgsOk last i (n + 1) (c :: l) ↔
    Fits (last i) (word isSpace (c :: l)) ∧
      ArgsOk last (i + 1) n (trim isSpace (afterWord isSpace (c :: l))) := by
  simp only [ArgsOk, fields_succ, remainder_succ, if_neg h, forall_getElem?_cons, and_assoc,
    Nat.add_zero, Nat.add_assoc, Nat.add_comm 1]

end

theorem slots_hold_iff {last : ℕ → UInt8} {i n : ℕ} {l : Bytes} (h : IsText l) :
    (fillFrom last i (fieldsRaw isSpace colon n l)).map cString =
        (fields isSpace colon n l).map some ↔ ArgsOk last i n l := by
  induction n generalizing i l with
  | zero =>
    cases l with
    | nil => simp [fillFrom_nil, argsOk_nil]
    | cons c l =>
      by_cases hc : c = colon
      · subst hc
        simp [fieldsRaw_zero, fields_zero, fillFrom_cons, fillFrom_nil, argsOk_last_colon,
          cString_fill_colon (isText_cons.1 h).2]
      · simp [fieldsRaw_zero, fields_zero, fillFrom_cons, fillFrom_nil, argsOk_last hc, hc,
          cString_fill h]
  | succ n ih =>
    cases l with
    | nil => simp [fillFrom_nil, argsOk_nil]
    | cons c l =>
      by_cases hc : c = colon
      · subst hc
        simp [fieldsRaw_succ, fields_succ, fillFrom_cons, fillFrom_nil, argsOk_colon,
          cString_fill (isText_cons.1 h).2]
      · rw [argsOk_plain hc, ← ih h.afterWord.trim, ← cString_fill h.word]
        simp [fieldsRaw_succ, fields_succ, fillFrom_cons, fillFrom_nil, hc]

/-! ### Whole lines -/

/-- From a command on, the parser stays inside the line, and executes what is meant exactly when
the arguments reach their slots. -/
theorem parseCommand_at {N : ℕ} {behind : Bytes} {sc : Scan} {l : Bytes}
    (last : ℕ → UInt8) (origin : Origin) (h : At N behind sc l) :
    Done N behind (parseCommand last origin sc).2 ∧
      ((parseCommand last origin sc).1.Is (rfcCommand origin l) ↔
        ArgsOk last 0 (RFC1459_MAXARGS - 1) l) := by
  cases l with
  | nil =>
    rw [parseCommand, if_pos h.cur_nil]
    exact ⟨h.done, by simp [rfcCommand, Parsed.Is, argsOk_nil]⟩
  | cons c l =>
    obtain ⟨sc', hres, hdone⟩ := parseArgs_at last h
    rw [parseCommand, if_neg (by rw [h.cur_eq_zero]; simp), hres, ← slots_hold_iff h.text]
    exact ⟨hdone, by simp [rfcCommand, rfcFields, Parsed.Is]⟩

/-- Reading never becomes unread. -/
theorem high_le_argLoop (last : ℕ → UInt8) (n i : ℕ) (sc : Scan) (argv : List Bytes) :
    sc.high ≤ (argLoop last n i sc argv).2.1.high := by
  induction n generalizing i sc argv with
  | zero => exact le_rfl
  | succ n ih =>
    by_cases hc : sc.cur = colon
    · rw [argLoop_colon _ _ _ _ hc]
      exact (le_max_left _ _).trans (le_max_left _ _)
    · have hcut : sc.high ≤ (cutArg sc).high := by
        rw [cutArg, apply_ite Scan.high]
        split <;> exact le_max_left _ _
      have hround : sc.high ≤ ((cutArg sc).copied sc.s).skipSpace.high :=
        hcut.trans ((le_max_left _ _).trans (le_max_left _ _))
      rw [argLoop_plain _ _ _ _ hc]
      dsimp only
      split
      · exact hround
      · exact hround.trans (ih _ _ _)

theorem high_le_parseCommand (last : ℕ → UInt8) (origin : Origin) (sc : Scan) :
    sc.high ≤ (parseCommand last origin sc).2.high := by
  have h := high_le_argLoop last (RFC1459_MAXARGS - 1) 0 sc []
  unfold parseCommand parseArgs
  rcases hres : argLoop last (RFC1459_MAXARGS - 1) 0 sc [] with ⟨i, sc', argv⟩
  rw [hres] at h
  split
  · exact le_rfl
  · dsimp only
    split
    · exact h.trans ((le_max_left _ _).trans (le_max_left _ _))
    · exact h.trans (le_max_left _ _)

/-- The lines that a server protocol tokenises as meant: a bare prefix only of an unknown sender,
otherwise no leading blank, and arguments that reach their slots. -/
def ServerTokenises (o : Origins) (last : ℕ → UInt8) : Bytes → Prop
  | [] => True
  | c :: l =>
      if c = colon then
        (o.find (word isSpace l)).isSome → afterWord isSpace l ≠ [] ∧
          ArgsOk last 0 (RFC1459_MAXARGS - 1) (trim isSpace (afterWord isSpace l))
      else isSpace c = false ∧ ArgsOk last 0 (RFC1459_MAXARGS - 1) (c :: l)

/-- The lines that the client protocol tokenises as meant: the arguments reach their slots. -/
def ClientTokenises (last : ℕ → UInt8) (line : Bytes) : Prop :=
  match trim isSpace line with
  | [] => True
  | c :: l =>
      ArgsOk last 0 (RFC1459_MAXARGS - 1)
        (if c = colon then trim isSpace (afterWord isSpace (c :: l)) else c :: l)

/-- The lines that `packet_parse` tokenises as meant. -/
def Tokenises : Protocol → Origins → (ℕ → UInt8) → Bytes → Prop
  | .rfc1459, _, last, line => ClientTokenises last line
  | _, o, last, line => ServerTokenises o last line

theorem clientParse_meets_iff (o : Origins) (last : ℕ → UInt8) {line : Bytes} (behind : Bytes)
    (h : IsText line) :
    MeetsRfc .rfc1459 o last line behind ↔ ClientTokenises last line := by
  have hat : At line.length behind (Scan.skip isSpace ⟨line ++ 0 :: behind, 0, 1⟩)
      (trim isSpace line) := (At.start behind h).skip isSpace_zero
  simp only [MeetsRfc, packetParse, clientParse, rfcMessage, ClientTokenises]
  cases hl : trim isSpace line with
  | nil =>
    rw [hl] at hat
    have hcmd := parseCommand_at last .self hat
    rw [if_neg (by rw [hat.cur_nil]; decide)]
    simpa [hcmd.1.high_le, argsOk_nil, rfcCommand] using hcmd.2
  | cons c l =>
    rw [hl] at hat
    by_cases hc : c = colon
    · have hcmd := parseCommand_at last .self hat.skipWord.skipSpace
      simpa [hat.cur_cons, hc, hcmd.1.high_le] using hcmd.2
    · have hcmd := parseCommand_at last .self hat
      simpa [hat.cur_cons, hc, hcmd.1.high_le] using hcmd.2

/-- Past a prefix the parser stands on the blank behind it, or behind the terminator when there is
none; the prefix has become a string. -/
theorem At.pastPrefix {N : ℕ} {behind : Bytes} {sc : Scan} {l : Bytes} (h : At N behind sc l) :
    strAt (sc.skipWord.put.next.mem.drop sc.s) = word isSpace l ∧
      (afterWord isSpace l ≠ [] → ∃ r, At N behind sc.skipWord.put.next r ∧
        trim isSpace r = trim isSpace (afterWord isSpace l)) := by
  refine ⟨h.strAt_put, fun hne => ?_⟩
  have hcur : sc.skipWord.cur ≠ 0 := by rwa [Ne, h.skipWord.cur_eq_zero]
  obtain ⟨r, hr, htrim⟩ := h.cutArg
  exact ⟨r, by rwa [Ithildin.cutArg, if_pos hcur] at hr, htrim⟩

/-- A bare prefix leaves the pointer behind the terminator, where the next loop reads. -/
theorem At.bare_high {N : ℕ} {behind : Bytes} {sc : Scan} {l : Bytes} (h : At N behind sc l)
    (hbare : afterWord isSpace l = []) : N + 2 ≤ sc.skipWord.put.next.skipSpace.high := by
  have hw := word_append_afterWord isSpace l
  rw [hbare, List.append_nil] at hw
  have hs := h.skipWord_s
  have hpos := h.pos
  rw [hw] at hs
  simp only [Scan.skipSpace, Scan.skip, Scan.touch, Scan.next, Scan.put]
  omega

theorem rfcMessage_of_colon {p : Protocol} (hp : p.IsServer) (o : Origins) (l : Bytes) :
    rfcMessage p o (colon :: l) =
      (o.find (word isSpace l)).bind fun origin =>
        rfcCommand origin (trim isSpace (afterWord isSpace l)) := by
  cases p <;> first | rfl | exact absurd rfl hp

theorem rfcMessage_command (p : Protocol) (o : Origins) {c : UInt8} {l : Bytes}
    (hc : c ≠ colon) (hspace : isSpace c = false) :
    rfcMessage p o (c :: l) = rfcCommand .self (c :: l) := by
  simp [rfcMessage, trim, hspace, hc]

theorem Origins.find_ne_self (o : Origins) (pfx : Bytes) : o.find pfx ≠ some .self := by
  unfold Origins.find
  split <;> split <;> simp

/-- A command that a server protocol takes to come from the connection itself has a name. -/
theorem rfcMessage_self {p : Protocol} (hp : p.IsServer) {o : Origins} {line : Bytes}
    {args : List Bytes} (h : rfcMessage p o line = some (.self, args)) :
    args.head? ≠ some [] := by
  have htrim : rfcMessage p o (trim isSpace line) = some (.self, args) := by
    rwa [rfcMessage, trim_trim, ← rfcMessage]
  cases hl : trim isSpace line with
  | nil => simp [rfcMessage, hl] at h
  | cons c l =>
    have hspace := sep_head_trim hl
    rw [hl] at htrim
    by_cases hc : c = colon
    · subst hc
      rw [rfcMessage_of_colon hp, Option.bind_eq_some_iff] at htrim
      obtain ⟨origin, hfind, hcmd⟩ := htrim
      have : origin = .self := by
        simp only [rfcCommand, Option.ite_none_left_eq_some, Option.some.injEq,
          Prod.mk.injEq] at hcmd
        exact hcmd.2.1
      exact absurd (this ▸ hfind) (o.find_ne_self _)
    · rw [rfcMessage_command p o hc hspace] at htrim
      obtain rfl : rfcFields (c :: l) = args := by simpa [rfcCommand] using htrim
      simp [rfcFields, RFC1459_MAXARGS, fields_succ, hc, word, hspace]

theorem packetParse_server {p : Protocol} (hp : p.IsServer) (o : Origins) (last : ℕ → UInt8)
    (mem : Bytes) : packetParse p o last mem = serverParse o last mem := by
  cases p <;> first | rfl | exact absurd rfl hp

/-- A server protocol takes a leading blank for an empty command. -/
theorem leading_space_not_is (last : ℕ → UInt8) {p : Protocol} (hp : p.IsServer) (o : Origins)
    {N : ℕ} {behind : Bytes} {sc : Scan} {c : UInt8} {l line : Bytes} (hc : c ≠ colon)
    (hspace : isSpace c = true) (h : At N behind sc (c :: l)) :
    ¬ (parseCommand last .self sc).1.Is (rfcMessage p o line) := by
  obtain ⟨sc', hres, -⟩ := parseArgs_at last h
  rw [parseCommand, if_neg (by rw [h.cur_eq_zero]; simp), hres]
  cases hmsg : rfcMessage p o line with
  | none => simp [Parsed.Is]
  | some msg =>
    obtain ⟨origin, args⟩ := msg
    rintro ⟨rfl, hargs⟩
    have hempty : cString (fill (last 0) []) = some [] :=
      (cString_fill (by simp [IsText])).2 (.inl (by decide))
    have hhead := congrArg List.head? hargs
    simp only [RFC1459_MAXARGS, fieldsRaw_succ, hc, if_false, fillFrom_cons, word, hspace,
      List.takeWhile_cons, Bool.not_true, Bool.false_eq_true, List.map_cons, List.head?_cons,
      hempty, List.head?_map] at hhead
    refine rfcMessage_self hp hmsg ?_
    cases hargs' : args.head? <;> simp_all

theorem serverParse_meets_iff {p : Protocol} (hp : p.IsServer) (o : Origins) (last : ℕ → UInt8)
    {line : Bytes} (behind : Bytes) (h : IsText line) :
    MeetsRfc p o last line behind ↔ ServerTokenises o last line := by
  have hat := At.start behind h
  simp only [MeetsRfc, packetParse_server hp, serverParse]
  cases line with
  | nil =>
    have hcmd := parseCommand_at last .self hat
    rw [if_neg (by rw [hat.cur_nil]; decide), and_iff_right hcmd.1.high_le]
    simpa [argsOk_nil, rfcCommand, rfcMessage, trim, ServerTokenises] using hcmd.2
  | cons c l =>
    by_cases hc : c = colon
    · subst hc
      obtain ⟨hname, hpast⟩ := hat.next.pastPrefix
      have hone : Scan.s (Scan.next ⟨colon :: l ++ 0 :: behind, 0, 1⟩) = 1 := rfl
      rw [hone] at hname
      rw [if_pos hat.cur_cons, rfcMessage_of_colon hp, hname]
      simp only [ServerTokenises, if_true]
      cases o.find (word isSpace l) with
      | none => exact ⟨fun _ => by simp, fun _ => ⟨hat.next.skipWord.high_le, trivial⟩⟩
      | some origin =>
        by_cases hbare : afterWord isSpace l = []
        · have hhigh := (hat.next.bare_high hbare).trans (high_le_parseCommand last origin _)
          simp only [hbare, ne_eq, not_true_eq_false, false_and, Option.isSome_some, imp_false,
            iff_false, not_and]
          omega
        · obtain ⟨r, hr, htrim⟩ := hpast hbare
          have hcmd := parseCommand_at last origin hr.skipSpace
          rw [htrim] at hcmd
          rw [and_iff_right hcmd.1.high_le]
          simpa [hbare] using hcmd.2
    · have hcmd := parseCommand_at last .self hat
      rw [if_neg (by rwa [hat.cur_cons]), and_iff_right hcmd.1.high_le]
      by_cases hspace : isSpace c
      · simpa [ServerTokenises, hc, hspace] using leading_space_not_is last hp o hc hspace hat
      · rw [rfcMessage_command p o hc (by simpa using hspace)]
        simpa [ServerTokenises, hc, hspace] using hcmd.2

/-- `packet_parse` stays inside its line and produces the tokenisation of RFC 1459 on exactly the
lines of `Tokenises`, whatever lies behind the line. -/
theorem packetParse_meetsRfc_iff (p : Protocol) (o : Origins) (last : ℕ → UInt8) {line : Bytes}
    (behind : Bytes) (h : IsText line) :
    MeetsRfc p o last line behind ↔ Tokenises p o last line := by
  cases p with
  | ithildin1 | bahamut14 | dreamforge =>
    exact serverParse_meets_iff (by simp [Protocol.IsServer]) o last behind h
  | rfc1459 => exact clientParse_meets_iff o last behind h

/-- One server and no client are known. -/
def oneServer (name : Bytes) : Origins := ⟨fun s => s == name, fun _ => false⟩

theorem packetParse_meetsRfc_iff_ping :
    IsText (bytes ":a.b PING x :y z") ∧
      (MeetsRfc .ithildin1 (oneServer (bytes "a.b")) (fun _ => 1) (bytes ":a.b PING x :y z") [] ↔
        Tokenises .ithildin1 (oneServer (bytes "a.b")) (fun _ => 1) (bytes ":a.b PING x :y z")) :=
  ⟨by decide, packetParse_meetsRfc_iff _ _ _ _ (by decide)⟩

/-- A bare prefix of a known server makes a server protocol execute the line behind it; the
fifteenth argument keeps its `':'` in every protocol; a line of blanks is executed by a server
protocol. -/
theorem packetParse_not_meetsRfc :
    ¬ MeetsRfc .ithildin1 (oneServer (bytes "a.b")) (fun _ => 0) (bytes ":a.b")
        (bytes "PING x\n" ++ [0]) ∧
      ¬ MeetsRfc .rfc1459 (oneServer []) (fun _ => 0)
        (bytes "C 1 2 3 4 5 6 7 8 9 a b c d :e f") [] ∧
      ¬ MeetsRfc .bahamut14 (oneServer []) (fun _ => 0) (bytes " ") [] := by
  refine ⟨?_, ?_, ?_⟩ <;> decide +kernel

/-! ### The memory behind the line -/

/-- The line is a prefix and nothing else, and names a sender that is known. -/
def BareKnown (o : Origins) : Bytes → Prop
  | [] => False
  | c :: l => c = colon ∧ afterWord isSpace l = [] ∧ (o.find l).isSome

instance (o : Origins) : ∀ line, Decidable (BareKnown o line)
  | [] => isFalse id
  | _ :: _ => inferInstanceAs (Decidable (_ ∧ _))

/-- Parsing this text puts no NUL into it: it is blank, or one word that does not start with
`':'` and ends with the text. -/
def Undisturbed (text : Bytes) : Prop :=
  (trim isSpace text).head? ≠ some colon ∧ afterWord isSpace (trim isSpace text) = []

instance (text : Bytes) : Decidable (Undisturbed text) := inferInstanceAs (Decidable (_ ∧ _))

theorem Done.drop_behind {N : ℕ} {behind : Bytes} {sc : Scan} (h : Done N behind sc) :
    sc.mem.drop (N + 1) = behind := by
  rw [← List.drop_drop, h.drop_end]
  rfl

theorem parseCommand_mem {N : ℕ} {behind : Bytes} {sc : Scan} {l : Bytes} (last : ℕ → UInt8)
    (origin : Origin) (h : At N behind sc l) (hhead : l.head? ≠ some colon)
    (hword : afterWord isSpace l = []) : (parseCommand last origin sc).2.mem = sc.mem := by
  cases l with
  | nil => rw [parseCommand, if_pos h.cur_nil]
  | cons c l =>
    have hc : c ≠ colon := by simpa using hhead
    have hend := h.skipWord
    obtain ⟨-, hround⟩ := h.round (last 0)
    rw [hword] at hend hround
    have hcut : (cutArg sc).mem = sc.mem := by
      rw [cutArg, if_neg (by simp [hend.cur_nil]), At.skipWord_mem]
    rw [parseCommand, if_neg (by rw [h.cur_eq_zero]; simp), parseArgs, RFC1459_MAXARGS,
      argLoop_plain _ _ _ _ (by rwa [h.cur_cons])]
    have hcur : (((cutArg sc).copied sc.s).skipSpace).cur = 0 := hround.cur_nil
    simp only [hcur, if_true, ne_eq, not_true_eq_false, false_and, if_false]
    exact hcut

theorem At.pastPrefix_mem {N : ℕ} {behind : Bytes} {sc : Scan} {l : Bytes}
    (h : At N behind sc l) : sc.skipWord.put.next.mem.drop (N + 1) = behind := by
  have hlen := congrArg List.length (word_append_afterWord isSpace l)
  have hpos := h.pos
  rw [List.length_append] at hlen
  simp only [Scan.next, Scan.put, h.skipWord_s, At.skipWord_mem]
  rw [List.drop_set_of_lt (by omega)]
  exact h.done.drop_behind

/-- Behind a bare prefix the parser stands at the start of another text. -/
theorem At.bare_at {N : ℕ} {behind : Bytes} {sc : Scan} {l : Bytes} (h : At N behind sc l)
    (hbare : afterWord isSpace l = []) (hnul : 0 ∈ behind) :
    ∃ r, At (N + 1 + (strAt behind).length) r sc.skipWord.put.next (strAt behind) := by
  obtain ⟨r, hr⟩ := exists_strAt hnul
  have hw := word_append_afterWord isSpace l
  have hs := h.skipWord_s
  have hpos := h.pos
  have hhigh := h.skipWord.high_le
  rw [hbare, List.append_nil] at hw
  rw [hw] at hs
  have hnext : sc.skipWord.put.next.s = N + 1 := by
    simp only [Scan.next, Scan.put]
    omega
  refine ⟨r, ?_, by omega, ?_, isText_strAt behind⟩
  · rw [Scan.rest, hnext, h.pastPrefix_mem, ← hr]
  · simp only [Scan.next, Scan.put]
    omega

/-- Behind the line `packet_parse` leaves the memory as it was, unless it runs into it after a bare
prefix and finds there something to cut. -/
theorem packetParse_behind (p : Protocol) (o : Origins) (last : ℕ → UInt8) {line : Bytes}
    (behind : Bytes) (h : IsText line)
    (hquiet : p.IsServer → BareKnown o line → 0 ∈ behind ∧ Undisturbed (strAt behind)) :
    (packetParse p o last (line ++ 0 :: behind)).2.mem.drop (line.length + 1) = behind := by
  have hat := At.start behind h
  by_cases hp : p.IsServer
  · rw [packetParse_server hp, serverParse]
    cases line with
    | nil =>
      rw [if_neg (by rw [hat.cur_nil]; decide)]
      exact (parseCommand_at last .self hat).1.drop_behind
    | cons c l =>
      by_cases hc : c = colon
      · subst hc
        obtain ⟨hname, hpast⟩ := hat.next.pastPrefix
        have hmem := hat.next.pastPrefix_mem
        have hone : Scan.s (Scan.next ⟨colon :: l ++ 0 :: behind, 0, 1⟩) = 1 := rfl
        rw [hone] at hname
        rw [if_pos hat.cur_cons]
        dsimp only
        rw [hname]
        cases hfind : o.find (word isSpace l) with
        | none => exact hmem
        | some origin =>
          by_cases hbare : afterWord isSpace l = []
          · -- the parser goes on behind the terminator, over the text that stands there
            have hw := word_append_afterWord isSpace l
            rw [hbare, List.append_nil] at hw
            obtain ⟨hnul, hhead, hword⟩ :=
              hquiet hp ⟨rfl, hbare, by rw [← hw, hfind]; rfl⟩
            obtain ⟨r, hrest⟩ := hat.next.bare_at hbare hnul
            exact (congrArg (List.drop _)
              (parseCommand_mem last origin hrest.skipSpace hhead hword)).trans hmem
          · obtain ⟨r, hr, -⟩ := hpast hbare
            exact (parseCommand_at last origin hr.skipSpace).1.drop_behind
      · rw [if_neg (by rwa [hat.cur_cons])]
        exact (parseCommand_at last .self hat).1.drop_behind
  · obtain rfl : p = .rfc1459 := by simpa [Protocol.IsServer] using hp
    have hskip := hat.skip isSpace_zero
    simp only [packetParse, clientParse]
    split
    · exact (parseCommand_at last .self hskip.skipWord.skipSpace).1.drop_behind
    · exact (parseCommand_at last .self hskip).1.drop_behind

end Ithildin
