import Ithildin.Command.Hooks
import Ithildin.Lib.Buffer
import Ithildin.Protocol.Parse
import Mathlib.Data.List.GetD
import Mathlib.Tactic.Common

/-!
# Folding of arguments

What `command_exec_client` and `command_exec_server` do with arguments beyond the maximum, before
the function of the command is called.

* `foldExtras`: the loop that appends the extras to `argv[max]`, an array of
  `COMMAND_MAXARGLEN + 1` bytes;
* `clientArgs`, `serverArgs`: the two functions up to there;
* `folds_iff`: when the arguments are folded as the flags of the side say.
-/

namespace Ithildin

open Buffer

def COMMAND_FL_FOLDMAX : UInt32 := 0x0001

/-- `argv[max]`, the pointer into it and `len`. -/
structure FoldState where
  arr : Bytes
  s : ℕ
  len : ℕ
  deriving DecidableEq

/-- `strlen` from a place in an array on; `beyond` is where the next NUL is behind the array. -/
def strlenFrom (beyond : ℕ) (arr : Bytes) (s : ℕ) : ℕ :=
  if 0 ∈ arr.drop s then (strAt (arr.drop s)).length else arr.length - s + beyond

/-- One argument is appended; nothing comes of a write outside of the array. -/
def foldArg (beyond : ℕ) (st : FoldState) (arg : Bytes) : Option FoldState :=
  if st.arr.length ≤ st.s then none
  else
    let arr := storeAt st.s [blank] st.arr
    let s := st.s + 1
    let len := st.len + 1
    -- the bound of `strncpy` is unsigned, and what it leaves free is padded
    if COMMAND_MAXARGLEN < len then none
    else
      let arr := storeAt s (strncpy (COMMAND_MAXARGLEN - len) arg) arr
      some ⟨arr, s + strlenFrom beyond arr s, len + strlenFrom beyond arr s⟩

/-- The extras are folded into `argv[max]`, which is an array of `COMMAND_MAXARGLEN + 1` bytes. -/
def foldExtras (beyond max : ℕ) (argv : List Bytes) : Option (List Bytes) :=
  let arr := argv.getD max []
  let len := strlenFrom beyond arr 0
  (((argv.drop (max + 1)).map strAt).foldlM (foldArg beyond) ⟨arr, len, len⟩).map fun st =>
    argv.set max (st.arr.set COMMAND_MAXARGLEN 0)

/-- What becomes of a command's arguments. -/
inductive ExecArgs
  | needMoreParams
  | outside
  | ready (argv : List Bytes)
  deriving DecidableEq

/-- The checks of the number of arguments; `argc` is the length of the list. -/
def execArgs (beyond min max : ℕ) (flags : UInt32) (argv : List Bytes) : ExecArgs :=
  if argv.length - 1 < min then .needMoreParams
  else if max < argv.length - 1 ∧ flags &&& COMMAND_FL_FOLDMAX ≠ 0 then
    match foldExtras beyond max argv with
    | none => .outside
    | some argv => .ready argv
  else .ready argv

/-- In `command_exec_client`. -/
def clientArgs (beyond : ℕ) (client : CommandSide) (argv : List Bytes) : ExecArgs :=
  execArgs beyond client.min client.max client.flags argv

/-- In `command_exec_server`; the flags are those of the other side. -/
def serverArgs (beyond : ℕ) (client server : CommandSide) (argv : List Bytes) : ExecArgs :=
  execArgs beyond server.min server.max client.flags argv

/-! ### The loop -/

/-- The arguments with blanks between them. -/
def joined (first : Bytes) (extras : List Bytes) : Bytes :=
  first ++ extras.flatMap fun arg => blank :: arg

@[simp] theorem joined_nil (first : Bytes) : joined first [] = first := by simp [joined]

theorem joined_cons (first arg : Bytes) (extras : List Bytes) :
    joined first (arg :: extras) = joined (first ++ blank :: arg) extras := by
  simp [joined]

theorem length_le_joined (first : Bytes) (extras : List Bytes) :
    first.length ≤ (joined first extras).length := by
  simp [joined]

theorem isText_joined {first : Bytes} {extras : List Bytes} (hfirst : IsText first)
    (hextras : ∀ arg ∈ extras, IsText arg) : IsText (joined first extras) := by
  intro h
  simp only [joined, List.mem_append, List.mem_flatMap, List.mem_cons] at h
  obtain h | ⟨arg, harg, h | h⟩ := h
  · exact hfirst h
  · exact absurd h (by decide)
  · exact hextras arg harg h

/-- The array holds the text so far, or as much of it as there is room for. -/
structure FoldState.Holds (st : FoldState) (text : Bytes) : Prop where
  size : st.arr.length = 512
  len : st.len = st.s
  room : text.length < 511 → st.s = text.length ∧ ∃ rest, st.arr = text ++ 0 :: rest
  full : 511 ≤ text.length → 511 ≤ st.s ∧ st.arr.take 511 = text.take 511

variable {beyond : ℕ} {st : FoldState} {text arg : Bytes}

/-- A full array takes no more. -/
theorem foldArg_full (h : st.Holds text) (hfull : 511 ≤ text.length) (arg : Bytes) :
    foldArg beyond st arg = none := by
  obtain ⟨hs, -⟩ := h.full hfull
  have hlen := h.len
  unfold foldArg
  split
  · rfl
  · dsimp only
    rw [if_pos (by rw [COMMAND_MAXARGLEN]; omega)]

theorem strlenFrom_text {pre s rest : Bytes} (hs : IsText s) :
    strlenFrom beyond (pre ++ (s ++ 0 :: rest)) pre.length = s.length := by
  unfold strlenFrom
  rw [List.drop_left' rfl, if_pos (by simp), strAt_append hs]

/-- The pointer goes to the end of the string that begins behind `pre`. -/
def FoldState.pastString (beyond : ℕ) (pre tail : Bytes) : FoldState where
  arr := pre ++ tail
  s := pre.length + strlenFrom beyond (pre ++ tail) pre.length
  len := pre.length + strlenFrom beyond (pre ++ tail) pre.length

/-- A blank and a copy of the argument are stored; `z` is the last byte of the array, which is
never stored to in the loop. -/
theorem foldArg_eq (h : st.Holds text) (hroom : text.length < 511) (arg : Bytes) :
    ∃ z, foldArg beyond st arg = some (.pastString beyond (text ++ [blank])
      (strncpy (510 - text.length) arg ++ [z])) := by
  obtain ⟨hs, rest, harr⟩ := h.room hroom
  have hlen := h.len
  have hsize := h.size
  rw [harr, List.length_append, List.length_cons] at hsize
  obtain ⟨z, hz⟩ : ∃ z, rest.drop (510 - text.length) = [z] := by
    apply List.length_eq_one_iff.1
    rw [List.length_drop]
    omega
  refine ⟨z, ?_⟩
  have hplace : st.s + 1 = (text ++ [blank]).length := by
    rw [List.length_append, List.length_singleton, hs]
  have hblank : storeAt st.s [blank] st.arr = (text ++ [blank]) ++ rest := by
    rw [hs, harr, storeAt_append]
    simp
  have hbound : COMMAND_MAXARGLEN - (text ++ [blank]).length = 510 - text.length := by
    rw [COMMAND_MAXARGLEN, List.length_append, List.length_singleton]
    omega
  have hinside : ¬ st.arr.length ≤ st.s := by
    rw [h.size]
    omega
  have hpositive : ¬ COMMAND_MAXARGLEN < (text ++ [blank]).length := by
    rw [COMMAND_MAXARGLEN, List.length_append, List.length_singleton]
    omega
  unfold foldArg
  rw [if_neg hinside]
  dsimp only
  rw [hlen, hplace, if_neg hpositive, hbound, hblank, storeAt_append, length_strncpy, hz,
    List.append_assoc (text ++ [blank]), FoldState.pastString]

/-- The copy of an argument that is shorter than the room for it ends in a NUL. -/
theorem strlenFrom_strncpy_of_lt {n : ℕ} {pre : Bytes} (harg : IsText arg) (h : arg.length < n)
    (z : UInt8) : ∃ rest, strncpy n arg ++ [z] = arg ++ 0 :: rest ∧
      strlenFrom beyond (pre ++ (strncpy n arg ++ [z])) pre.length = arg.length := by
  obtain ⟨k, hk⟩ : ∃ k, n - arg.length = k + 1 := ⟨n - arg.length - 1, by omega⟩
  have hpadded : strncpy n arg ++ [z] = arg ++ 0 :: (List.replicate k 0 ++ [z]) := by
    rw [strncpy_of_length_le (by omega), hk, List.replicate_succ, List.append_assoc]
    rfl
  refine ⟨_, hpadded, ?_⟩
  rw [hpadded, strlenFrom_text harg]

/-- The copy of one that is not fills the room, and the string goes on behind it if the last byte
is no NUL. -/
theorem le_strlenFrom_strncpy {n : ℕ} {pre : Bytes} (harg : IsText arg) (h : n ≤ arg.length)
    (z : UInt8) : n ≤ strlenFrom beyond (pre ++ (strncpy n arg ++ [z])) pre.length := by
  have hcopy := length_strncpy n arg
  have htext : IsText (strncpy n arg) := by
    rw [strncpy_of_le_length h]
    exact isText_take harg n
  by_cases hz : z = 0
  · rw [hz, strlenFrom_text htext, hcopy]
  · rw [strlenFrom, List.drop_left' rfl, if_neg]
    · simp only [List.length_append, List.length_singleton, hcopy]
      omega
    · simp only [List.mem_append, List.mem_singleton, not_or]
      exact ⟨htext, fun heq => hz heq.symm⟩

theorem foldArg_room (h : st.Holds text) (hroom : text.length < 511) (harg : IsText arg) :
    ∃ st', foldArg beyond st arg = some st' ∧ st'.Holds (text ++ blank :: arg) := by
  obtain ⟨z, hfold⟩ := @foldArg_eq beyond _ _ h hroom arg
  refine ⟨_, hfold, ?_, rfl, ?_, ?_⟩
  · simp only [FoldState.pastString, List.length_append, List.length_singleton, length_strncpy]
    omega
  · intro hshort
    rw [List.length_append, List.length_cons] at hshort
    obtain ⟨rest, hcopy, hlen⟩ := @strlenFrom_strncpy_of_lt beyond _ (510 - text.length)
      (text ++ [blank]) harg (by omega) z
    rw [FoldState.pastString]
    dsimp only
    rw [hlen, hcopy]
    exact ⟨by simp; omega, rest, by simp⟩
  · intro hlong
    rw [List.length_append, List.length_cons] at hlong
    have hlen := @le_strlenFrom_strncpy beyond _ (510 - text.length) (text ++ [blank]) harg
      (by omega) z
    have hplace : (text ++ [blank]).length = text.length + 1 := by simp
    refine ⟨?_, ?_⟩
    · simp only [FoldState.pastString]
      omega
    · simp only [FoldState.pastString]
      rw [← List.append_assoc, List.take_left' (by
        rw [List.length_append, hplace, length_strncpy]
        omega), List.take_append, List.take_of_length_le (show text.length ≤ 511 by omega),
        show 511 - text.length = (510 - text.length) + 1 by omega, List.take_succ_cons,
        strncpy_of_le_length (by omega)]
      simp

/-- The loop goes through exactly if there is room in front of the last argument. -/
theorem foldlM_foldArg {extras : List Bytes} (h : st.Holds text) (hextras : extras ≠ [])
    (htexts : ∀ arg ∈ extras, IsText arg) :
    ((joined text extras.dropLast).length < 511 →
      ∃ st', extras.foldlM (foldArg beyond) st = some st' ∧ st'.Holds (joined text extras)) ∧
    (511 ≤ (joined text extras.dropLast).length →
      extras.foldlM (foldArg beyond) st = none) := by
  induction extras generalizing st text with
  | nil => exact absurd rfl hextras
  | cons arg extras ih =>
    have harg := htexts arg List.mem_cons_self
    have htexts' := fun arg' hmem => htexts arg' (List.mem_cons_of_mem _ hmem)
    rw [List.foldlM_cons]
    by_cases hroom : text.length < 511
    · obtain ⟨st', hfold, hst'⟩ := @foldArg_room beyond _ _ _ h hroom harg
      rw [hfold, Option.bind_eq_bind, Option.bind_some]
      cases extras with
      | nil =>
        rw [List.dropLast_singleton, joined_nil, joined_cons, joined_nil]
        exact ⟨fun _ => ⟨st', rfl, hst'⟩, fun hfull => absurd hroom (by omega)⟩
      | cons arg' extras =>
        rw [List.dropLast_cons_cons, joined_cons, joined_cons]
        exact ih hst' (List.cons_ne_nil _ _) htexts'
    · have hlong := length_le_joined text (arg :: extras).dropLast
      rw [foldArg_full h (by omega)]
      exact ⟨fun hshort => absurd hshort (by omega), fun _ => rfl⟩

/-! ### The whole vector -/

/-- The arrays of a vector: all of one size, each with a string. -/
def Arrays (argv : List Bytes) : Prop :=
  ∀ arr ∈ argv, arr.length = COMMAND_MAXARGLEN + 1 ∧ 0 ∈ arr

/-- `argv[max]` as a string, and the strings behind it. -/
def firstOf (max : ℕ) (argv : List Bytes) : Bytes := strAt (argv.getD max [])

def extrasOf (max : ℕ) (argv : List Bytes) : List Bytes := (argv.drop (max + 1)).map strAt

/-- `argv[max]` holds a text, and the other arrays are as they were. -/
structure Becomes (max : ℕ) (argv : List Bytes) (text : Bytes) (args : ExecArgs) : Prop where
  ready : ∃ arr, args = .ready (argv.set max arr) ∧ arr.length = COMMAND_MAXARGLEN + 1 ∧
    cString arr = some text

/-- The arguments beyond the maximum are folded into the last one, or they are not. -/
def Folds (fold : Prop) [Decidable fold] (max : ℕ) (argv : List Bytes) (args : ExecArgs) : Prop :=
  Becomes max argv
    (if fold then (joined (firstOf max argv) (extrasOf max argv)).take COMMAND_MAXARGLEN
      else firstOf max argv) args

theorem FoldState.Holds.start {arr : Bytes} (hsize : arr.length = 512) (hnul : 0 ∈ arr) :
    (FoldState.mk arr (strlenFrom beyond arr 0) (strlenFrom beyond arr 0)).Holds (strAt arr) := by
  have hlen : strlenFrom beyond arr 0 = (strAt arr).length := by simp [strlenFrom, hnul]
  obtain ⟨rest, hrest⟩ := exists_strAt hnul
  refine ⟨hsize, rfl, fun _ => ⟨hlen, rest, hrest⟩, fun hfull => ?_⟩
  dsimp only
  rw [hlen]
  refine ⟨hfull, ?_⟩
  have hlength := congrArg List.length hrest
  rw [hsize, List.length_append, List.length_cons] at hlength
  calc
    arr.take 511 = (strAt arr ++ 0 :: rest).take 511 := congrArg _ hrest
    _ = strAt arr := List.take_left' (by omega)
    _ = (strAt arr).take 511 := (List.take_of_length_le (by omega)).symm

/-- The last byte is made a NUL. -/
theorem FoldState.Holds.cString (h : st.Holds text) (htext : IsText text) :
    cString (st.arr.set COMMAND_MAXARGLEN 0) = some (text.take COMMAND_MAXARGLEN) := by
  refine cString_eq_some.2 ⟨fun hzero => htext (List.mem_of_mem_take hzero), ?_⟩
  by_cases hroom : text.length < 511
  · obtain ⟨-, rest, harr⟩ := h.room hroom
    refine ⟨rest.set (510 - text.length) 0, ?_⟩
    rw [harr, COMMAND_MAXARGLEN, List.take_of_length_le (by omega),
      List.set_append_right _ _ (by omega),
      show 511 - text.length = (510 - text.length) + 1 by omega, List.set_cons_succ]
  · obtain ⟨-, hfull⟩ := h.full (by omega)
    obtain ⟨z, hz⟩ : ∃ z, st.arr.drop 511 = [z] := by
      apply List.length_eq_one_iff.1
      rw [List.length_drop, h.size]
    have harr : st.arr = text.take 511 ++ [z] := by
      rw [← hfull, ← hz, List.take_append_drop]
    have hcut : (text.take 511).length = 511 := by
      rw [List.length_take]
      omega
    refine ⟨[], ?_⟩
    rw [harr, COMMAND_MAXARGLEN, List.set_append_right _ _ (by omega), hcut]
    rfl

theorem getD_mem {argv : List Bytes} {max : ℕ} (h : max < argv.length) :
    argv.getD max [] ∈ argv := by
  rw [List.getD_eq_getElem _ _ h]
  exact List.getElem_mem h

theorem extrasOf_ne_nil {argv : List Bytes} {max : ℕ} (hmore : max < argv.length - 1) :
    extrasOf max argv ≠ [] := by
  simp only [extrasOf, ne_eq, List.map_eq_nil_iff, List.drop_eq_nil_iff]
  omega

/-- The loop over a vector with extras. -/
theorem foldExtras_spec {argv : List Bytes} {max : ℕ} (hargv : Arrays argv)
    (hmore : max < argv.length - 1) :
    ((joined (firstOf max argv) (extrasOf max argv).dropLast).length < COMMAND_MAXARGLEN →
      ∃ arr, foldExtras beyond max argv = some (argv.set max arr) ∧
        arr.length = COMMAND_MAXARGLEN + 1 ∧ cString arr =
          some ((joined (firstOf max argv) (extrasOf max argv)).take COMMAND_MAXARGLEN)) ∧
    (COMMAND_MAXARGLEN ≤ (joined (firstOf max argv) (extrasOf max argv).dropLast).length →
      foldExtras beyond max argv = none) := by
  obtain ⟨hsize, hnul⟩ := hargv _ (getD_mem (show max < argv.length by omega))
  have hextras := extrasOf_ne_nil hmore
  have htexts : ∀ arg ∈ extrasOf max argv, IsText arg := by
    intro arg harg
    obtain ⟨arr, -, rfl⟩ := List.mem_map.1 harg
    exact isText_strAt arr
  obtain ⟨hgoes, hstops⟩ := @foldlM_foldArg beyond _ _ _
    (@FoldState.Holds.start beyond _ hsize hnul) hextras htexts
  constructor
  · intro hroom
    obtain ⟨st, hfold, hst⟩ := hgoes hroom
    refine ⟨st.arr.set COMMAND_MAXARGLEN 0, ?_, ?_, ?_⟩
    · rw [foldExtras]
      change Option.map _ (List.foldlM _ _ (extrasOf max argv)) = _
      rw [hfold]
      rfl
    · rw [List.length_set, hst.size]
      rfl
    · exact hst.cString (isText_joined (isText_strAt _) htexts)
  · intro hfull
    rw [foldExtras]
    change Option.map _ (List.foldlM _ _ (extrasOf max argv)) = _
    rw [hstops hfull]
    rfl

theorem set_eq_set_iff {argv : List Bytes} {max : ℕ} (h : max < argv.length) {arr arr' : Bytes} :
    argv.set max arr = argv.set max arr' ↔ arr = arr' := by
  constructor
  · intro heq
    have hget := congrArg (fun l => l[max]?) heq
    simpa [h] using hget
  · rintro rfl
    rfl

/-- For a text to be in `argv[max]`, it must be the text that is there. -/
theorem becomes_ready_iff {argv : List Bytes} {max : ℕ} (hmax : max < argv.length) {arr : Bytes}
    (hsize : arr.length = COMMAND_MAXARGLEN + 1) {text text' : Bytes}
    (htext : cString arr = some text) :
    Becomes max argv text' (.ready (argv.set max arr)) ↔ text = text' := by
  constructor
  · rintro ⟨arr', heq, -, htext'⟩
    rw [ExecArgs.ready.injEq, set_eq_set_iff hmax] at heq
    rw [heq, htext'] at htext
    exact (Option.some.inj htext).symm
  · rintro rfl
    exact ⟨arr, rfl, hsize, htext⟩

/-- A command with its two sides. -/
structure CommandSides where
  client : CommandSide
  server : CommandSide

/-- The side that a command is executed on, for a client (`true`) or a server. -/
def CommandSides.side (cmd : CommandSides) (client : Bool) : CommandSide :=
  if client then cmd.client else cmd.server

/-- `command_exec_client` or `command_exec_server`. -/
def CommandSides.args (beyond : ℕ) (cmd : CommandSides) (client : Bool) (argv : List Bytes) :
    ExecArgs :=
  if client then clientArgs beyond cmd.client argv
  else serverArgs beyond cmd.client cmd.server argv

/-- The string in an array leaves room for its NUL. -/
theorem length_firstOf_le {argv : List Bytes} {max : ℕ} (hargv : Arrays argv)
    (hmax : max < argv.length) : (firstOf max argv).length ≤ COMMAND_MAXARGLEN := by
  obtain ⟨hsize, hnul⟩ := hargv _ (getD_mem hmax)
  obtain ⟨rest, hrest⟩ := exists_strAt hnul
  have hlength := congrArg List.length hrest
  rw [hsize, List.length_append, List.length_cons] at hlength
  rw [firstOf]
  omega

/-- What is folded in shows, unless the first argument fills its array. -/
theorem first_eq_take_joined_iff {first : Bytes} {extras : List Bytes} (hextras : extras ≠ [])
    (hfirst : first.length ≤ COMMAND_MAXARGLEN) :
    first = (joined first extras).take COMMAND_MAXARGLEN ↔ first.length = COMMAND_MAXARGLEN := by
  have hlonger : first.length < (joined first extras).length := by
    obtain ⟨arg, extras, rfl⟩ := List.exists_cons_of_ne_nil hextras
    rw [joined_cons]
    refine lt_of_lt_of_le ?_ (length_le_joined _ _)
    simp
  constructor
  · intro heq
    have hlength := congrArg List.length heq
    rw [List.length_take] at hlength
    omega
  · intro heq
    rw [← heq]
    exact (List.take_left' rfl).symm

/-- With extras and enough arguments, it is the flags that decide. -/
theorem execArgs_of_lt {min max : ℕ} {flags : UInt32} {argv : List Bytes}
    (hmin : min ≤ argv.length - 1) (hmore : max < argv.length - 1) :
    execArgs beyond min max flags argv =
      if flags &&& COMMAND_FL_FOLDMAX ≠ 0 then
        match foldExtras beyond max argv with
        | none => .outside
        | some argv => .ready argv
      else .ready argv := by
  rw [execArgs, if_neg (show ¬ argv.length - 1 < min by omega)]
  simp only [hmore, true_and]

/-- The arguments are folded as the flags of the side say exactly if the flags for clients say the
same and all but the last argument leave room, or if there is nothing to fold in. -/
theorem folds_iff (beyond : ℕ) (cmd : CommandSides) (client : Bool) {argv : List Bytes}
    (hargv : Arrays argv) (hmin : (cmd.side client).min ≤ argv.length - 1)
    (hmore : (cmd.side client).max < argv.length - 1) :
    Folds ((cmd.side client).flags &&& COMMAND_FL_FOLDMAX ≠ 0) (cmd.side client).max argv
      (cmd.args beyond client argv) ↔
    if cmd.client.flags &&& COMMAND_FL_FOLDMAX ≠ 0 then
      (cmd.side client).flags &&& COMMAND_FL_FOLDMAX ≠ 0 ∧
        (joined (firstOf (cmd.side client).max argv)
          (extrasOf (cmd.side client).max argv).dropLast).length < COMMAND_MAXARGLEN
    else
      (cmd.side client).flags &&& COMMAND_FL_FOLDMAX = 0 ∨
        (firstOf (cmd.side client).max argv).length = COMMAND_MAXARGLEN := by
  have hargs : cmd.args beyond client argv = execArgs beyond (cmd.side client).min
      (cmd.side client).max cmd.client.flags argv := by
    cases client <;> rfl
  rw [hargs, Folds, execArgs_of_lt hmin hmore]
  generalize (cmd.side client).flags &&& COMMAND_FL_FOLDMAX = own
  generalize (cmd.side client).max = max at hmore ⊢
  have hplace : max < argv.length := by omega
  have hfirst := length_firstOf_le hargv hplace
  have hshows := first_eq_take_joined_iff (extrasOf_ne_nil hmore) hfirst
  obtain ⟨hgoes, hstops⟩ := @foldExtras_spec beyond _ _ hargv hmore
  by_cases hflag : cmd.client.flags &&& COMMAND_FL_FOLDMAX ≠ 0
  · rw [if_pos hflag, if_pos hflag]
    by_cases hroom : (joined (firstOf max argv) (extrasOf max argv).dropLast).length <
        COMMAND_MAXARGLEN
    · obtain ⟨arr, hfold, harr, htext⟩ := hgoes hroom
      rw [hfold]
      dsimp only
      rw [becomes_ready_iff hplace harr htext]
      by_cases hown : own ≠ 0
      · simp [hown, hroom]
      · have hshort : (firstOf max argv).length < COMMAND_MAXARGLEN :=
          (length_le_joined _ _).trans_lt hroom
        rw [if_neg hown]
        refine iff_of_false (fun heq => ?_) fun h => hown h.1
        exact absurd (hshows.1 heq.symm) hshort.ne
    · rw [hstops (by omega)]
      refine iff_of_false ?_ fun h => hroom h.2
      rintro ⟨arr, heq, -⟩
      cases heq
  · rw [if_neg hflag, if_neg hflag]
    -- `argv[max]` is left as it was
    obtain ⟨hsize, hnul⟩ := hargv _ (getD_mem hplace)
    have hself : argv = argv.set max (argv.getD max []) := by
      rw [List.getD_eq_getElem _ _ hplace, List.set_getElem_self]
    have hstring : Ithildin.cString (argv.getD max []) = some (firstOf max argv) :=
      if_pos hnul
    have hready : ExecArgs.ready argv = .ready (argv.set max (argv.getD max [])) :=
      congrArg _ hself
    rw [hready, becomes_ready_iff hplace hsize hstring]
    by_cases hown : own = 0
    · simp [hown]
    · rw [if_pos hown, hshows]
      simp only [hown, false_or]

/-- A command whose arguments are folded for clients, and are not for servers. -/
def watchCommand : CommandSides :=
  ⟨⟨true, 0, 1, COMMAND_FL_FOLDMAX, none⟩, ⟨true, 0, 1, 0, none⟩⟩

/-- `WATCH a b`. -/
def watchArgv : List Bytes :=
  [strncpy 512 (bytes "WATCH"), strncpy 512 (bytes "a"), strncpy 512 (bytes "b")]

theorem folds_iff_watch :
    Folds ((watchCommand.side true).flags &&& COMMAND_FL_FOLDMAX ≠ 0) (watchCommand.side true).max
      watchArgv (watchCommand.args 0 true watchArgv) ↔
    if watchCommand.client.flags &&& COMMAND_FL_FOLDMAX ≠ 0 then
      (watchCommand.side true).flags &&& COMMAND_FL_FOLDMAX ≠ 0 ∧
        (joined (firstOf (watchCommand.side true).max watchArgv)
          (extrasOf (watchCommand.side true).max watchArgv).dropLast).length < COMMAND_MAXARGLEN
    else
      (watchCommand.side true).flags &&& COMMAND_FL_FOLDMAX = 0 ∨
        (firstOf (watchCommand.side true).max watchArgv).length = COMMAND_MAXARGLEN := by
  have harrays : Arrays watchArgv := by
    intro arr harr
    simp only [watchArgv, List.mem_cons, List.not_mem_nil, or_false] at harr
    obtain rfl | rfl | rfl := harr <;> exact ⟨by decide +kernel, by decide⟩
  exact folds_iff 0 watchCommand true harrays (by decide) (by decide)

/-- The arguments from a server are folded as for a client. -/
theorem folds_fails :
    ¬ Folds ((watchCommand.side false).flags &&& COMMAND_FL_FOLDMAX ≠ 0)
      (watchCommand.side false).max watchArgv (watchCommand.args 0 false watchArgv) := by
  have hargs : watchCommand.args 0 false watchArgv =
      .ready (watchArgv.set 1 (strncpy 512 (bytes "a b"))) := by
    decide +kernel
  have htext : Ithildin.cString (strncpy 512 (bytes "a b")) = some (bytes "a b") := by
    decide
  have hsize : (strncpy 512 (bytes "a b")).length = COMMAND_MAXARGLEN + 1 := by decide +kernel
  have hfirst : bytes "a b" ≠ firstOf 1 watchArgv := by decide
  intro h
  rw [hargs] at h
  exact hfirst ((becomes_ready_iff (by decide) hsize htext).1 h)

end Ithildin
