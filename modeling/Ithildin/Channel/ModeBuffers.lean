import Ithildin.Channel.Relay
import Mathlib.Data.List.Nodup
import Mathlib.Logic.Relation

/-!
# `channel_mode` and its buffers

The main loop with the cursor that it moves over the mode string, and the buffer of the loop that
takes modes off.

* `ModeCursor.next`: a round of the main loop, over the bytes of the string and what lies behind it;
* `plainChar`: what a byte of the string comes to when the buffers are as long as it takes;
* `ModeCall.Within`: the call reads and writes only what it may, and looks at every byte once;
* `ModeCall.Fits`: what the changes come to has room in the buffers, at every byte of the string;
* `within_iff_fits`: the one exactly if the other.
-/

namespace Ithildin

open Relation

variable {t : ModeTable} {cl : Clients} {cli : Option Actor}

/-! ### The cursor -/

/-- Where the main loop stands: `modes`, and the places it has looked at. -/
structure ModeCursor where
  st : ModeLoop
  pos : ℕ
  examined : List ℕ

/-- What a byte comes to if there is room for it. -/
def plainChar (t : ModeTable) (cl : Clients) (cli : Option Actor) (st : ModeLoop) (c : UInt8) :
    ModeLoop :=
  if c = plusSign then
    if st.plus then st else { st with plus := true, result := putSign st.result plusSign minusSign }
  else if c = minusSign then
    if st.plus then { st with plus := false, result := putSign st.result minusSign plusSign }
    else st
  else st.after c (changeMode t cl cli st.chan c st.plus st.args.head?)

/-- Our own client has made as many changes as it may. -/
def ModeLoop.Full (cli : Option Actor) (st : ModeLoop) : Prop := cli.isSome ∧ MAXMODES ≤ st.mset

instance (st : ModeLoop) : Decidable (st.Full cli) := inferInstanceAs (Decidable (_ ∧ _))

/-- A round of the main loop; `none` when it has ended.  Next to an argument that `rbuf` has no room
for, the cursor moves in the branch and behind the switch. -/
def ModeCursor.next (t : ModeTable) (cl : Clients) (cli : Option Actor) (mem : ℕ → UInt8)
    (s : ModeCursor) : Option ModeCursor :=
  let c := mem s.pos
  if c = 0 then none
  else if s.st.Full cli then none
  else if c ≠ plusSign ∧ c ≠ minusSign ∧ s.st.crowded = true then
    some ⟨s.st, s.pos + 2, s.examined ++ [s.pos]⟩
  else some ⟨plainChar t cl cli s.st c, s.pos + 1, s.examined ++ [s.pos]⟩

/-- A call of `channel_mode` with a mode string, its arguments, and what lies in memory behind the
terminator of the string. -/
structure ModeCall where
  t : ModeTable
  cl : Clients
  src : ModeSource
  chan : Chan
  ts : ℤ
  modes : Bytes
  args : List Bytes
  isText : IsText modes
  behind : ℕ → UInt8

namespace ModeCall

variable (c : ModeCall)

/-- The byte that a place holds. -/
def mem (i : ℕ) : UInt8 := (c.modes ++ [0])[i]?.getD (c.behind i)

/-- The main loop begins. -/
def start (chan : Chan) : ModeCursor := ⟨.start chan c.args, 0, []⟩

/-- The main loop, begun with this channel, comes to this state. -/
def Reached (chan : Chan) : ModeCursor → Prop :=
  ReflTransGen (fun s s' => s.next c.t c.cl c.src.cli c.mem = some s') (c.start chan)

/-- The main loop reads no byte behind the terminator and writes none behind `rbuf` and `result`,
and it ends when it has looked at each byte of the string once, one after the other; only a client
of ours is stopped before that, by `MAXMODES`. -/
structure LoopWithin (chan : Chan) : Prop where
  reads : ∀ s, c.Reached chan s → s.pos ≤ c.modes.length
  writes : ∀ s, c.Reached chan s → s.st.rbuf.length < RBUF_SIZE ∧ s.st.result.length < 64
  ends : ∃ s, c.Reached chan s ∧ s.next c.t c.cl c.src.cli c.mem = none ∧
    s.examined = List.range s.pos ∧ (s.pos = c.modes.length ∨ s.st.Full c.src.cli)

/-- The state behind a part of the string, with buffers as long as it takes. -/
def plain (chan : Chan) (pre : Bytes) : ModeLoop :=
  pre.foldl (fun st b => if st.Full c.src.cli then st else plainChar c.t c.cl c.src.cli st b)
    (.start chan c.args)

/-- What the changes come to has room in `rbuf` and `result`, and so has, at every mode the loop
comes to, the next argument behind those that have been used. -/
structure LoopFits (chan : Chan) : Prop where
  rbuf : (c.plain chan c.modes).rbuf.length < RBUF_SIZE
  result : (c.plain chan c.modes).result.length < 64
  room : ∀ pre b post, c.modes = pre ++ b :: post → ¬ (c.plain chan pre).Full c.src.cli →
    b ≠ plusSign → b ≠ minusSign → ∀ arg, (c.plain chan pre).args.head? = some arg →
      (c.plain chan pre).rbuf.length + arg.length < RBUF_SIZE

end ModeCall

/-! ### Rounds -/

theorem not_crowded_iff {st : ModeLoop} :
    ¬ st.crowded = true ↔
      ∀ arg, st.args.head? = some arg → st.rbuf.length + arg.length < RBUF_SIZE := by
  unfold ModeLoop.crowded
  cases st.args.head? with
  | none => simp
  | some arg =>
    simp only [Option.any_some, decide_eq_true_eq, Option.some.injEq, forall_eq']
    omega

/-- The buffers are only added to. -/
theorem length_plainChar (st : ModeLoop) (b : UInt8) :
    st.rbuf.length ≤ (plainChar t cl cli st b).rbuf.length ∧
      st.result.length ≤ (plainChar t cl cli st b).result.length := by
  have hsign : ∀ sign other : UInt8, st.result.length ≤ (putSign st.result sign other).length := by
    intro sign other
    unfold putSign
    split
    · simp only [List.length_append, List.length_dropLast, List.length_singleton]
      omega
    · simp
  unfold plainChar
  split
  · split
    · exact ⟨le_rfl, le_rfl⟩
    · exact ⟨le_rfl, hsign _ _⟩
  · split
    · split
      · exact ⟨le_rfl, hsign _ _⟩
      · exact ⟨le_rfl, le_rfl⟩
    · unfold ModeLoop.after
      dsimp only
      constructor
      · split
        · split
          · simp
          · exact le_rfl
        · exact le_rfl
      · split
        · simp
        · exact le_rfl

theorem plainChar_skip (st : ModeLoop) (b : UInt8) :
    (plainChar t cl cli st b).skip = st.skip := by
  unfold plainChar
  split
  · split <;> rfl
  · split
    · split <;> rfl
    · rfl

/-- With room for the next argument, the loop does what it would do with any room. -/
theorem modeChar_eq_plainChar {st : ModeLoop} {b : UInt8} (hskip : st.skip = false)
    (hroom : ¬ st.Full cli → b ≠ plusSign → b ≠ minusSign → ¬ st.crowded = true) :
    modeChar t cl cli st b = if st.Full cli then st else plainChar t cl cli st b := by
  unfold modeChar
  rw [if_neg (by simp [hskip])]
  by_cases hfull : st.Full cli
  · rw [if_pos hfull]
    exact if_pos hfull
  · rw [if_neg hfull]
    refine (if_neg hfull).trans ?_
    unfold plainChar
    by_cases hplus : b = plusSign
    · rw [if_pos hplus, if_pos hplus]
    by_cases hminus : b = minusSign
    · rw [if_neg hplus, if_neg hplus, if_pos hminus, if_pos hminus]
    rw [if_neg hplus, if_neg hplus, if_neg hminus, if_neg hminus]
    exact if_neg (hroom hfull hplus hminus)

namespace ModeCall

variable {c : ModeCall} {chan : Chan}

theorem plain_append (pre : Bytes) (b : UInt8) :
    c.plain chan (pre ++ [b]) =
      if (c.plain chan pre).Full c.src.cli then c.plain chan pre
      else plainChar c.t c.cl c.src.cli (c.plain chan pre) b := by
  unfold plain
  rw [List.foldl_append]
  rfl

/-- Nothing changes any more for a client that has made all its changes. -/
theorem plain_of_full {pre : Bytes} (h : (c.plain chan pre).Full c.src.cli) (post : Bytes) :
    c.plain chan (pre ++ post) = c.plain chan pre := by
  induction post using List.reverseRecOn with
  | nil => rw [List.append_nil]
  | append_singleton post b ih => rw [← List.append_assoc, plain_append, ih, if_pos h]

theorem length_plain (pre post : Bytes) :
    (c.plain chan pre).rbuf.length ≤ (c.plain chan (pre ++ post)).rbuf.length ∧
      (c.plain chan pre).result.length ≤ (c.plain chan (pre ++ post)).result.length := by
  induction post using List.reverseRecOn with
  | nil =>
    rw [List.append_nil]
    exact ⟨le_rfl, le_rfl⟩
  | append_singleton post b ih =>
    rw [← List.append_assoc, plain_append]
    split
    · exact ih
    · have hstep := @length_plainChar c.t c.cl c.src.cli (c.plain chan (pre ++ post)) b
      exact ⟨ih.1.trans hstep.1, ih.2.trans hstep.2⟩

theorem mem_length : c.mem c.modes.length = 0 := by
  simp [mem]

theorem mem_of_lt {pre post : Bytes} {b : UInt8} (h : c.modes = pre ++ b :: post) :
    c.mem pre.length = b ∧ b ≠ 0 := by
  constructor
  · simp [mem, h]
  · rintro rfl
    exact c.isText (by simp [h])

/-- The cursor behind a part of the string, each byte of which has been looked at. -/
def cursorAt (c : ModeCall) (chan : Chan) (pre : Bytes) : ModeCursor :=
  ⟨c.plain chan pre, pre.length, List.range pre.length⟩

/-- A round on a byte of the string. -/
theorem next_cursorAt {pre post : Bytes} {b : UInt8} (h : c.modes = pre ++ b :: post)
    (hfull : ¬ (c.plain chan pre).Full c.src.cli) :
    (c.cursorAt chan pre).next c.t c.cl c.src.cli c.mem =
      if b ≠ plusSign ∧ b ≠ minusSign ∧ (c.plain chan pre).crowded = true then
        some ⟨c.plain chan pre, pre.length + 2, List.range (pre.length + 1)⟩
      else some (c.cursorAt chan (pre ++ [b])) := by
  obtain ⟨hmem, hb⟩ := mem_of_lt h
  unfold ModeCursor.next cursorAt
  dsimp only
  rw [hmem, if_neg hb, if_neg hfull, plain_append, if_neg hfull, List.length_append,
    List.length_singleton, List.range_succ]

/-- There is room for the next argument at a byte of the string. -/
def Roomy (c : ModeCall) (chan : Chan) (pre : Bytes) (b : UInt8) : Prop :=
  ¬ (c.plain chan pre).Full c.src.cli → b ≠ plusSign → b ≠ minusSign →
    ¬ (c.plain chan pre).crowded = true

theorem next_of_roomy {pre post : Bytes} {b : UInt8} (h : c.modes = pre ++ b :: post)
    (hfull : ¬ (c.plain chan pre).Full c.src.cli) (hroom : c.Roomy chan pre b) :
    (c.cursorAt chan pre).next c.t c.cl c.src.cli c.mem = some (c.cursorAt chan (pre ++ [b])) := by
  rw [next_cursorAt h hfull, if_neg]
  rintro ⟨hplus, hminus, hcrowded⟩
  exact hroom hfull hplus hminus hcrowded

/-- The loop has ended at the end of the string, and for a client that has made all its changes. -/
theorem next_eq_none {pre post : Bytes} (h : c.modes = pre ++ post)
    (hend : post = [] ∨ (c.plain chan pre).Full c.src.cli) :
    (c.cursorAt chan pre).next c.t c.cl c.src.cli c.mem = none := by
  unfold ModeCursor.next cursorAt
  dsimp only
  rcases hend with rfl | hfull
  · rw [List.append_nil] at h
    rw [← h, mem_length, if_pos rfl]
  · rw [if_pos hfull]
    split <;> rfl

/-- As long as there is room, the loop comes behind every part of the string, or has made all
changes before. -/
theorem exists_reached {pre post : Bytes} (h : c.modes = pre ++ post)
    (hroom : ∀ pre' b post', c.modes = pre' ++ b :: post' → pre'.length < pre.length →
      c.Roomy chan pre' b) :
    ∃ pre₁ pre₂, pre = pre₁ ++ pre₂ ∧ c.Reached chan (c.cursorAt chan pre₁) ∧
      (pre₂ = [] ∨ (c.plain chan pre₁).Full c.src.cli) := by
  induction pre using List.reverseRecOn generalizing post with
  | nil => exact ⟨[], [], rfl, .refl, .inl rfl⟩
  | append_singleton pre b ih =>
    rw [List.append_assoc, List.singleton_append] at h
    obtain ⟨pre₁, pre₂, rfl, hreached, hend⟩ := ih h fun pre' b' post' h' hlt =>
      hroom pre' b' post' h' (by rw [List.length_append]; omega)
    by_cases hfull : (c.plain chan pre₁).Full c.src.cli
    · exact ⟨pre₁, pre₂ ++ [b], by rw [List.append_assoc], hreached, .inr hfull⟩
    · obtain rfl := hend.resolve_right hfull
      rw [List.append_nil] at h hroom ⊢
      have hnext := next_of_roomy h hfull (hroom pre₁ b post h (by simp))
      exact ⟨pre₁ ++ [b], [], by simp, hreached.tail hnext, .inl rfl⟩

/-- With room everywhere, that is all the loop does. -/
theorem eq_cursorAt_of_reached (hroom : ∀ pre b post, c.modes = pre ++ b :: post →
    c.Roomy chan pre b) {s : ModeCursor} (h : c.Reached chan s) :
    ∃ pre post, c.modes = pre ++ post ∧ s = c.cursorAt chan pre := by
  induction h with
  | refl => exact ⟨[], c.modes, rfl, rfl⟩
  | tail hreached hstep ih =>
    obtain ⟨pre, post, hmodes, rfl⟩ := ih
    cases post with
    | nil =>
      rw [next_eq_none hmodes (.inl rfl)] at hstep
      cases hstep
    | cons b post =>
      by_cases hfull : (c.plain chan pre).Full c.src.cli
      · rw [next_eq_none hmodes (.inr hfull)] at hstep
        cases hstep
      · rw [next_of_roomy hmodes hfull (hroom pre b post hmodes)] at hstep
        cases hstep
        exact ⟨pre ++ [b], post, by simpa using hmodes, rfl⟩

theorem LoopFits.roomy (h : c.LoopFits chan) :
    ∀ pre b post, c.modes = pre ++ b :: post → c.Roomy chan pre b := by
  intro pre b post hmodes hfull hplus hminus
  rw [not_crowded_iff]
  exact h.room pre b post hmodes hfull hplus hminus

theorem LoopFits.within (h : c.LoopFits chan) : c.LoopWithin chan := by
  have hform := fun s hs => eq_cursorAt_of_reached (s := s) h.roomy hs
  constructor
  · intro s hs
    obtain ⟨pre, post, hmodes, rfl⟩ := hform s hs
    rw [hmodes, List.length_append]
    exact Nat.le_add_right _ _
  · intro s hs
    obtain ⟨pre, post, hmodes, rfl⟩ := hform s hs
    have hlength := @length_plain c chan pre post
    rw [← hmodes] at hlength
    exact ⟨hlength.1.trans_lt h.rbuf, hlength.2.trans_lt h.result⟩
  · obtain ⟨pre₁, pre₂, hmodes, hreached, hend⟩ :=
      @exists_reached c chan c.modes [] (List.append_nil _).symm fun pre b post hmodes _ =>
        h.roomy pre b post hmodes
    refine ⟨_, hreached, next_eq_none hmodes hend, rfl, ?_⟩
    rcases hend with rfl | hfull
    · left
      rw [hmodes, List.append_nil]
      rfl
    · exact .inr hfull

/-- A place that has been passed over is never looked at. -/
theorem notMem_examined {i : ℕ} {s s' : ModeCursor} (hs : i ∉ s.examined ∧ i < s.pos)
    (h : ReflTransGen (fun s s' => s.next c.t c.cl c.src.cli c.mem = some s') s s') :
    i ∉ s'.examined ∧ i < s'.pos := by
  induction h with
  | refl => exact hs
  | tail _ hstep ih =>
    unfold ModeCursor.next at hstep
    dsimp only at hstep
    have hne := Nat.ne_of_lt ih.2
    split at hstep
    · cases hstep
    · split at hstep
      · cases hstep
      · split at hstep
        · cases hstep
          exact ⟨by simp [ih.1, hne], by dsimp only; omega⟩
        · cases hstep
          exact ⟨by simp [ih.1, hne], by dsimp only; omega⟩

/-- A loop that looks at every byte has room for the next argument at each of them. -/
theorem LoopWithin.roomy (h : c.LoopWithin chan) {pre post : Bytes} {b : UInt8}
    (hmodes : c.modes = pre ++ b :: post) : c.Roomy chan pre b := by
  induction hn : pre.length using Nat.strong_induction_on generalizing pre post b with
  | _ n ih =>
    intro hfull hplus hminus hcrowded
    obtain ⟨pre₁, pre₂, rfl, hreached, hend⟩ := @exists_reached c chan _ _ hmodes
      fun pre' b' post' h' hlt => ih pre'.length (by omega) h' rfl
    obtain rfl : pre₂ = [] := hend.resolve_right fun hfull₁ => by
      rw [plain_of_full hfull₁] at hfull
      exact hfull hfull₁
    rw [List.append_nil] at *
    -- the cursor passes over the byte behind this one
    have hnext := next_cursorAt hmodes hfull
    rw [if_pos ⟨hplus, hminus, hcrowded⟩] at hnext
    obtain ⟨s, hs, hnone, hexamined, -⟩ := h.ends
    have hlater : ReflTransGen (fun s s' => s.next c.t c.cl c.src.cli c.mem = some s')
        ⟨c.plain chan pre₁, pre₁.length + 2, List.range (pre₁.length + 1)⟩ s := by
      have hdet : Relator.RightUnique
          fun s s' => ModeCursor.next c.t c.cl c.src.cli c.mem s = some s' :=
        fun s s₁ s₂ h₁ h₂ => Option.some.inj (h₁.symm.trans h₂)
      rcases ReflTransGen.total_of_right_unique hdet (hreached.tail hnext) hs with hle | hle
      · exact hle
      · rcases hle.cases_head with rfl | ⟨s', hstep, -⟩
        · exact .refl
        · rw [hnone] at hstep
          cases hstep
    have hpassed := notMem_examined (i := pre₁.length + 1) ⟨by simp, by simp⟩ hlater
    rw [hexamined] at hpassed
    exact hpassed.1 (List.mem_range.2 hpassed.2)

theorem LoopWithin.fits (h : c.LoopWithin chan) : c.LoopFits chan := by
  have hroom : ∀ pre b post, c.modes = pre ++ b :: post → c.Roomy chan pre b :=
    fun _ _ _ hmodes => h.roomy hmodes
  obtain ⟨s, hs, -, -, hend⟩ := h.ends
  have hwrites := h.writes s hs
  obtain ⟨pre, post, hmodes, rfl⟩ := eq_cursorAt_of_reached hroom hs
  have hplain : c.plain chan c.modes = c.plain chan pre := by
    rcases hend with hpos | hfull
    · have hpost : post = [] := by
        have hlength := congrArg List.length hmodes
        rw [List.length_append, ← hpos] at hlength
        change pre.length = pre.length + post.length at hlength
        exact List.eq_nil_of_length_eq_zero (by omega)
      rw [hmodes, hpost, List.append_nil]
    · rw [hmodes, plain_of_full hfull]
  refine ⟨?_, ?_, fun pre b post hmodes hfull hplus hminus => ?_⟩
  · rw [hplain]
    exact hwrites.1
  · rw [hplain]
    exact hwrites.2
  · rw [← not_crowded_iff]
    exact hroom pre b post hmodes hfull hplus hminus

/-- The main loop keeps to its buffers and to the string exactly if there is room for what the
changes come to. -/
theorem loopWithin_iff : c.LoopWithin chan ↔ c.LoopFits chan := ⟨LoopWithin.fits, LoopFits.within⟩

/-- Then the loop does to the channel what `changeModes` says. -/
theorem LoopFits.changeModes_eq (h : c.LoopFits chan) :
    changeModes c.t c.cl c.src.cli chan c.modes c.args = some (c.plain chan c.modes).change := by
  have hfold : ∀ pre post, c.modes = pre ++ post →
      pre.foldl (modeChar c.t c.cl c.src.cli) (.start chan c.args) = c.plain chan pre ∧
        (c.plain chan pre).skip = false := by
    intro pre
    induction pre using List.reverseRecOn with
    | nil => exact fun _ _ => ⟨rfl, rfl⟩
    | append_singleton pre b ih =>
      intro post hmodes
      rw [List.append_assoc, List.singleton_append] at hmodes
      obtain ⟨hpre, hskip⟩ := ih _ hmodes
      rw [List.foldl_append, hpre, List.foldl_cons, List.foldl_nil,
        modeChar_eq_plainChar hskip (h.roomy pre b post hmodes), plain_append]
      refine ⟨rfl, ?_⟩
      split
      · exact hskip
      · rw [plainChar_skip, hskip]
  have hall := (hfold c.modes [] (List.append_nil _).symm).1
  rw [changeModes_of_fits (by rw [hall]; exact h.rbuf) (by rw [hall]; exact h.result), hall]

end ModeCall

/-! ### The modes taken off -/

/-- A mode that is taken off: the length of its argument, the bytes that are written for it, and for
a mode that is queried, the `optused` that the query is told: what the query before it left, or the
room that there was when the first one was made. -/
structure ResetItem where
  len : ℕ
  size : ℕ
  asked : Option (Option ℕ)

namespace ResetItem

/-- The buffer that the argument goes into. -/
def ready (buf : ResetBuf) (x : ResetItem) : ResetBuf :=
  match x.asked with
  | none => buf
  | some before =>
      let optused : ℤ := before.elim buf.optused fun len => len
      if 0 ≤ optused ∧ optused < x.len then buf.sendMaybe true else buf

/-- How far the argument and the blank behind it reach. -/
def reach (buf : ResetBuf) (x : ResetItem) : ℕ :=
  (x.ready buf).rblen + if x.len = 0 then 0 else x.len + 1

/-- The argument has room, and so has the terminator behind its blank. -/
def Fits (buf : ResetBuf) (x : ResetItem) : Prop :=
  (x.ready buf).rblen + x.size ≤ RBUF_SIZE ∧ x.reach buf < RBUF_SIZE

instance (buf : ResetBuf) (x : ResetItem) : Decidable (x.Fits buf) :=
  inferInstanceAs (Decidable (_ ∧ _))

/-- The buffer behind the mode. -/
def after (buf : ResetBuf) (x : ResetItem) : ResetBuf :=
  ResetBuf.sendMaybe ⟨x.reach buf, (x.ready buf).cnt + 1⟩ false

end ResetItem

/-- All modes have room when they are taken off one after the other. -/
def Packs : ResetBuf → List ResetItem → Prop
  | _, [] => True
  | buf, x :: l => x.Fits buf ∧ Packs (x.after buf) l

instance decidablePacks : ∀ (buf : ResetBuf) (l : List ResetItem), Decidable (Packs buf l)
  | _, [] => isTrue trivial
  | buf, x :: l =>
    have : Decidable (Packs (x.after buf) l) := decidablePacks (x.after buf) l
    inferInstanceAs (Decidable (x.Fits buf ∧ Packs (x.after buf) l))

/-- The nicks of those who lose a flag. -/
def uflagItems (cl : Clients) (mode : UInt8) : List ℕ → Chan → List ResetItem
  | [], _ => []
  | u :: us, chan =>
      if chan.uflags u mode then
        ⟨(cl.nick u).length, 0, none⟩ :: uflagItems cl mode us (chan.setUflag u mode false)
      else uflagItems cl mode us chan

/-- The bans of a list. -/
def banItems : Option ℕ → List Ban → List ResetItem
  | _, [] => []
  | before, b :: bs =>
      ⟨b.text.length, b.text.length + 1, some before⟩ :: banItems (some b.text.length) bs

/-- What is taken off for a mode. -/
def resetItems (t : ModeTable) (cl : Clients) (chan : Chan) (mode : UInt8) : List ResetItem :=
  match t.kind mode with
  | none => []
  | some (.uflag _) => uflagItems cl mode chan.users chan
  | some .ban => banItems none (chan.bans mode).list
  | some .key =>
      if chan.modes mode then [⟨(chan.key mode).length, PASSWDLEN, some none⟩] else []
  | some .limit =>
      if chan.modes mode then
        [⟨(itoa (chan.limit mode)).length, (itoa (chan.limit mode)).length + 1, some none⟩]
      else []
  | some .flag => if chan.modes mode then [⟨0, 0, none⟩] else []
  | some .reg => if chan.modes mode then [⟨0, 0, none⟩] else []

/-- The buffer behind all of them. -/
def packed (buf : ResetBuf) (l : List ResetItem) : ResetBuf :=
  l.foldl (fun buf x => x.after buf) buf

theorem packs_append {buf : ResetBuf} {l l' : List ResetItem} :
    Packs buf (l ++ l') ↔ Packs buf l ∧ Packs (packed buf l) l' := by
  induction l generalizing buf with
  | nil => simp [Packs, packed]
  | cons x l ih =>
    rw [List.cons_append, Packs, Packs, ih, and_assoc]
    rfl

/-- What lies in the buffer ends inside it. -/
theorem length_after {buf : ResetBuf} {x : ResetItem} (h : x.Fits buf) :
    (x.after buf).rblen < RBUF_SIZE := by
  unfold ResetItem.after ResetBuf.sendMaybe
  split
  · decide
  · exact h.2

theorem length_packed {buf : ResetBuf} {l : List ResetItem} (hbuf : buf.rblen < RBUF_SIZE)
    (h : Packs buf l) : (packed buf l).rblen < RBUF_SIZE := by
  induction l generalizing buf with
  | nil => exact hbuf
  | cons x l ih => exact ih (length_after h.1) h.2

theorem add_ready (buf : ResetBuf) (x : ResetItem) :
    (x.ready buf).add x.len =
      if x.reach buf < RBUF_SIZE then some (x.after buf) else none := by
  unfold ResetBuf.add ResetItem.after ResetItem.reach
  by_cases hlen : x.len = 0
  · simp [hlen]
  · simp [hlen, Nat.add_assoc]

/-- A mode that is not queried. -/
theorem add_eq {buf : ResetBuf} (len : ℕ) (hbuf : buf.rblen < RBUF_SIZE) :
    buf.add len = if ResetItem.Fits buf ⟨len, 0, none⟩ then
      some (ResetItem.after buf ⟨len, 0, none⟩) else none := by
  refine (add_ready buf ⟨len, 0, none⟩).trans ?_
  have hfits : ResetItem.Fits buf ⟨len, 0, none⟩ ↔
      ResetItem.reach buf ⟨len, 0, none⟩ < RBUF_SIZE := and_iff_right hbuf.le
  simp only [hfits]

/-- A mode that is queried. -/
theorem query_eq (buf : ResetBuf) (before : Option ℕ) (len size : ℕ) :
    buf.query (before.elim buf.optused fun len => len) len size =
      if ResetItem.Fits buf ⟨len, size, some before⟩ then
        some (ResetItem.after buf ⟨len, size, some before⟩) else none := by
  generalize hx : (⟨len, size, some before⟩ : ResetItem) = x
  have hquery : buf.query (before.elim buf.optused fun len => len) len size =
      if (x.ready buf).rblen + x.size ≤ RBUF_SIZE then (x.ready buf).add x.len else none := by
    rw [← hx]
    rfl
  rw [hquery, add_ready]
  by_cases hsize : (x.ready buf).rblen + x.size ≤ RBUF_SIZE
  · have hfits : x.Fits buf ↔ x.reach buf < RBUF_SIZE := and_iff_right hsize
    simp only [hfits, if_pos hsize]
  · rw [if_neg hsize, if_neg fun h => hsize h.1]

/-! ### One mode taken off -/

/-- Those who have a flag lose it. -/
def dropUflag (mode : UInt8) (us : List ℕ) (chan : Chan) : Chan :=
  us.foldl (fun chan u => if chan.uflags u mode then chan.setUflag u mode false else chan) chan

/-- The bans go. -/
def dropBans (t : ModeTable) (mode : UInt8) (bs : List Ban) (chan : Chan) : Chan :=
  bs.foldl (fun chan b => (chanmodeBan t none chan mode false (some b.text)).chan) chan

/-- The channel without a mode. -/
def dropMode (t : ModeTable) (chan : Chan) (mode : UInt8) : Chan :=
  match t.kind mode with
  | none => chan
  | some (.uflag _) => dropUflag mode chan.users chan
  | some .ban => dropBans t mode (chan.bans mode).list chan
  | some .key =>
      if chan.modes mode then (chanmodeKey t none chan mode false (some (chan.key mode))).chan
      else chan
  | some .limit =>
      if chan.modes mode then (chanmodeLimit t none chan mode false none).chan else chan
  | some .flag => if chan.modes mode then (chanmodeFlag t none chan mode false).chan else chan
  | some .reg => if chan.modes mode then (chanmodeReg none chan mode false).chan else chan

theorem resetUflag_eq {mode : UInt8} {us : List ℕ} {buf : ResetBuf} {chan : Chan}
    (hbuf : buf.rblen < RBUF_SIZE) :
    resetUflag cl mode us (buf, chan) =
      if Packs buf (uflagItems cl mode us chan) then
        some (packed buf (uflagItems cl mode us chan), dropUflag mode us chan) else none := by
  induction us generalizing buf chan with
  | nil => rfl
  | cons u us ih =>
    unfold resetUflag uflagItems dropUflag
    rw [List.foldl_cons]
    by_cases hu : chan.uflags u mode = true
    · rw [if_pos hu, if_pos hu, if_pos hu, add_eq _ hbuf]
      by_cases hfits : ResetItem.Fits buf ⟨(cl.nick u).length, 0, none⟩
      · rw [if_pos hfits, Option.bind_some, ih (length_after hfits)]
        unfold Packs
        simp only [hfits, true_and]
        rfl
      · rw [if_neg hfits, if_neg fun h => hfits h.1]
        rfl
    · rw [if_neg hu, if_neg hu, if_neg hu, ih hbuf]
      rfl

theorem resetBans_eq {mode : UInt8} {bs : List Ban} (before : Option ℕ) {buf : ResetBuf}
    {chan : Chan} :
    resetBans t mode (before.elim buf.optused fun len => len) bs (buf, chan) =
      if Packs buf (banItems before bs) then
        some (packed buf (banItems before bs), dropBans t mode bs chan) else none := by
  induction bs generalizing before buf chan with
  | nil => rfl
  | cons b bs ih =>
    unfold resetBans banItems dropBans
    rw [List.foldl_cons, query_eq]
    by_cases hfits : ResetItem.Fits buf ⟨b.text.length, b.text.length + 1, some before⟩
    · rw [if_pos hfits, Option.bind_some]
      refine (ih (some b.text.length)).trans ?_
      unfold Packs
      simp only [hfits, true_and]
      rfl
    · rw [if_neg hfits, if_neg fun h => hfits h.1]
      rfl

/-- A mode with one item at most. -/
theorem packs_singleton {buf : ResetBuf} {x : ResetItem} : Packs buf [x] ↔ x.Fits buf :=
  and_iff_left trivial

/-- One mode is taken off just if all that it comes to has room. -/
theorem resetMode_eq {mode : UInt8} {buf : ResetBuf} {chan : Chan} (hbuf : buf.rblen < RBUF_SIZE) :
    resetMode t cl mode (buf, chan) =
      if Packs buf (resetItems t cl chan mode) then
        some (packed buf (resetItems t cl chan mode), dropMode t chan mode) else none := by
  have hquery := fun len size => query_eq buf none len size
  dsimp only [Option.elim_none] at hquery
  unfold resetMode resetItems dropMode
  dsimp only
  cases t.kind mode with
  | none => rfl
  | some kind =>
    cases kind with
    | uflag pfx => exact resetUflag_eq hbuf
    | ban => exact resetBans_eq none
    | key =>
      dsimp only
      split
      · simp only [hquery, packs_singleton]
        split <;> rfl
      · rfl
    | limit =>
      dsimp only
      split
      · simp only [hquery, packs_singleton]
        split <;> rfl
      · rfl
    | flag =>
      dsimp only
      split
      · simp only [add_eq 0 hbuf, packs_singleton]
        split <;> rfl
      · rfl
    | reg =>
      dsimp only
      split
      · simp only [add_eq 0 hbuf, packs_singleton]
        split <;> rfl
      · rfl

/-- All that a channel holds for a mode is the same. -/
structure SameFor (m : UInt8) (chan chan' : Chan) : Prop where
  users : chan'.users = chan.users
  uflags : ∀ u, chan'.uflags u m = chan.uflags u m
  bans : chan'.bans m = chan.bans m
  modes : chan'.modes m = chan.modes m
  key : chan'.key m = chan.key m
  limit : chan'.limit m = chan.limit m

section
variable {m mode : UInt8} {chan chan' chan'' : Chan}

theorem SameFor.refl (m : UInt8) (chan : Chan) : SameFor m chan chan :=
  ⟨rfl, fun _ => rfl, rfl, rfl, rfl, rfl⟩

theorem SameFor.trans (h : SameFor m chan chan') (h' : SameFor m chan' chan'') :
    SameFor m chan chan'' :=
  ⟨h'.users.trans h.users, fun u => (h'.uflags u).trans (h.uflags u), h'.bans.trans h.bans,
    h'.modes.trans h.modes, h'.key.trans h.key, h'.limit.trans h.limit⟩

theorem sameFor_setFlag (hm : m ≠ mode) (set : Bool) : SameFor m chan (chan.setFlag mode set) := by
  constructor <;> simp [Chan.setFlag, hm]

theorem sameFor_setKey (hm : m ≠ mode) (arg : Bytes) : SameFor m chan (chan.setKey mode arg) := by
  constructor <;> simp [Chan.setKey, hm]

theorem sameFor_setLimit (hm : m ≠ mode) (n : ℕ) : SameFor m chan (chan.setLimit mode n) := by
  constructor <;> simp [Chan.setLimit, hm]

theorem sameFor_setBans (hm : m ≠ mode) (l : BanList) : SameFor m chan (chan.setBans mode l) := by
  constructor <;> simp [Chan.setBans, hm]

theorem sameFor_setUflag (hm : m ≠ mode) (cp : ℕ) (set : Bool) :
    SameFor m chan (chan.setUflag cp mode set) := by
  refine ⟨rfl, fun u => ?_, rfl, rfl, rfl, rfl⟩
  by_cases hu : u = cp
  · simp [Chan.setUflag, hu, hm]
  · simp [Chan.setUflag, hu]

theorem sameFor_dropUflag (hm : m ≠ mode) (us : List ℕ) :
    SameFor m chan (dropUflag mode us chan) := by
  unfold dropUflag
  induction us generalizing chan with
  | nil => exact .refl m chan
  | cons u us ih =>
    rw [List.foldl_cons]
    refine SameFor.trans ?_ ih
    split
    · exact sameFor_setUflag hm u false
    · exact .refl m chan

theorem sameFor_dropBans (hm : m ≠ mode) (bs : List Ban) :
    SameFor m chan (dropBans t mode bs chan) := by
  unfold dropBans
  induction bs generalizing chan with
  | nil => exact .refl m chan
  | cons b bs ih =>
    rw [List.foldl_cons]
    refine SameFor.trans ?_ ih
    have hban : (chanmodeBan t none chan mode false (some b.text)).chan =
        chan.setBans mode ((chan.bans mode).remove b) := by
      simp [chanmodeBan, denied, banMask_text]
    rw [hban]
    exact sameFor_setBans hm _

/-- One mode that is taken off leaves the others. -/
theorem sameFor_dropMode (hm : m ≠ mode) : SameFor m chan (dropMode t chan mode) := by
  unfold dropMode
  cases t.kind mode with
  | none => exact .refl m chan
  | some kind =>
    cases kind with
    | uflag pfx => exact sameFor_dropUflag hm chan.users
    | ban => exact sameFor_dropBans hm _
    | key =>
      dsimp only
      split
      · exact (sameFor_setKey hm []).trans (sameFor_setFlag hm false)
      · exact .refl m chan
    | limit =>
      dsimp only
      split
      · exact (sameFor_setLimit hm 0).trans (sameFor_setFlag hm false)
      · exact .refl m chan
    | flag =>
      dsimp only
      split
      · exact sameFor_setFlag hm false
      · exact .refl m chan
    | reg =>
      dsimp only
      split
      · exact sameFor_setFlag hm false
      · exact .refl m chan

theorem uflagItems_congr (us : List ℕ) (h : ∀ u, chan'.uflags u m = chan.uflags u m) :
    uflagItems cl m us chan' = uflagItems cl m us chan := by
  induction us generalizing chan chan' with
  | nil => rfl
  | cons u us ih =>
    unfold uflagItems
    rw [h u]
    split
    · refine congrArg _ (ih fun v => ?_)
      by_cases hv : v = u
      · simp [Chan.setUflag, hv]
      · simp [Chan.setUflag, hv, h v]
    · exact ih h

theorem SameFor.resetItems_eq (h : SameFor m chan chan') :
    resetItems t cl chan' m = resetItems t cl chan m := by
  unfold resetItems
  rw [h.users, h.bans, h.modes, h.key, h.limit, uflagItems_congr _ h.uflags]

/-- All modes can be taken off just if all they come to has room. -/
theorem resetModes_isSome (chan : Chan) :
    (resetModes t cl chan).isSome ↔ Packs ⟨0, 0⟩ (t.avail.flatMap (resetItems t cl chan)) := by
  have hfold : ∀ (l : List UInt8), l.Nodup → ∀ (buf : ResetBuf) (chan : Chan),
      buf.rblen < RBUF_SIZE →
      ((l.foldlM (fun s m => resetMode t cl m s) (buf, chan)).isSome ↔
        Packs buf (l.flatMap (resetItems t cl chan))) := by
    intro l hnodup
    induction l with
    | nil => exact fun buf chan _ => by simp [Packs]
    | cons m l ih =>
      intro buf chan hbuf
      obtain ⟨hm, hnodup⟩ := List.nodup_cons.1 hnodup
      rw [List.foldlM_cons, resetMode_eq hbuf, List.flatMap_cons, packs_append]
      split
      · rename_i hpacks
        have hrest : l.flatMap (resetItems t cl (dropMode t chan m)) =
            l.flatMap (resetItems t cl chan) := by
          refine List.flatMap_congr fun m' hm' => ?_
          exact (sameFor_dropMode fun heq : m' = m => hm (heq ▸ hm')).resetItems_eq
        rw [and_iff_right hpacks, ← hrest]
        exact ih hnodup _ _ (length_packed hbuf hpacks)
      · rename_i hpacks
        exact iff_of_false (by simp) fun h => hpacks h.1
  unfold resetModes
  rw [Option.isSome_map]
  exact hfold t.avail t.nodup_avail ⟨0, 0⟩ chan (by decide)

end

/-! ### The call -/

namespace ModeCall

/-- The call takes the modes off first. -/
def Resets (c : ModeCall) : Prop :=
  (∃ server master, c.src = .uplink true server master) ∧ c.ts < c.chan.created

/-- The call keeps to its buffers and to the mode string. -/
def Within (c : ModeCall) : Prop :=
  match acceptTs c.t c.cl c.src c.chan c.ts with
  | none => False
  | some none => True
  | some (some chan) => c.LoopWithin chan

/-- What the call comes to has room: the modes that are taken off, and the changes after that. -/
structure Fits (c : ModeCall) : Prop where
  reset : c.Resets → Packs ⟨0, 0⟩ (c.t.avail.flatMap (resetItems c.t c.cl c.chan))
  loop : ∀ chan, acceptTs c.t c.cl c.src c.chan c.ts = some (some chan) → c.LoopFits chan

/-- The call goes wrong before the main loop just if it takes off what has no room. -/
theorem acceptTs_eq_none {c : ModeCall} :
    acceptTs c.t c.cl c.src c.chan c.ts = none ↔
      c.Resets ∧ ¬ Packs ⟨0, 0⟩ (c.t.avail.flatMap (resetItems c.t c.cl c.chan)) := by
  have hitems : resetItems c.t c.cl { c.chan with created := c.ts } =
      resetItems c.t c.cl c.chan := by
    funext m
    exact SameFor.resetItems_eq ⟨rfl, fun _ => rfl, rfl, rfl, rfl, rfl⟩
  have hreset := @resetModes_isSome c.t c.cl { c.chan with created := c.ts }
  rw [hitems] at hreset
  unfold Resets acceptTs
  cases c.src with
  | mine a => simp
  | uplink supportsTs server master =>
    cases supportsTs with
    | false =>
      dsimp only
      split <;> simp
    | true =>
      dsimp only
      split
      · simp only [reduceCtorEq, false_iff, not_and, not_not]
        intro h
        omega
      · split
        · rename_i hlt
          rw [Option.map_eq_none_iff, ← hreset]
          simp [hlt]
        · rename_i hlt
          simp [hlt]

/-- A call of `channel_mode` reads and writes only what it may, and looks at every byte of the mode
string once, exactly if what it comes to has room in its buffers. -/
theorem within_iff_fits (c : ModeCall) : c.Within ↔ c.Fits := by
  unfold Within
  cases haccept : acceptTs c.t c.cl c.src c.chan c.ts with
  | none =>
    obtain ⟨hresets, hpacks⟩ := acceptTs_eq_none.1 haccept
    exact iff_of_false id fun h => hpacks (h.reset hresets)
  | some accepted =>
    have hreset : c.Resets → Packs ⟨0, 0⟩ (c.t.avail.flatMap (resetItems c.t c.cl c.chan)) := by
      intro hresets
      by_contra hpacks
      rw [acceptTs_eq_none.2 ⟨hresets, hpacks⟩] at haccept
      cases haccept
    cases accepted with
    | none =>
      refine iff_of_true trivial ⟨hreset, fun chan h => ?_⟩
      rw [haccept] at h
      cases h
    | some chan =>
      refine (@loopWithin_iff c chan).trans ⟨fun h => ⟨hreset, fun chan' h' => ?_⟩,
        fun h => h.loop chan haccept⟩
      rw [haccept] at h'
      cases h'
      exact h

/-- `"MODE #c k <320 bytes>"` of a client of ours: the cursor passes over the terminator. -/
theorem within_fails : ¬ ∀ c : ModeCall, c.Within := by
  intro h
  obtain ⟨key, hkey⟩ : ∃ key : Bytes, key = List.replicate 320 97 := ⟨_, rfl⟩
  have hlength : key.length = 320 := by rw [hkey, List.length_replicate]
  let c : ModeCall :=
    ⟨coreModes, oneClient, .mine ⟨0, false⟩, .new 0, 0, bytes "k", [key], by decide, fun _ => 0⟩
  have hwithin : c.LoopWithin (.new 0) := h c
  have hcrowded : (c.plain (.new 0) []).crowded = true := by
    by_contra hnot
    have hroom : 0 + key.length < RBUF_SIZE := not_crowded_iff.1 hnot key rfl
    rw [hlength] at hroom
    exact absurd hroom (by decide)
  have hfull : ¬ (c.plain (.new 0) []).Full c.src.cli := fun hfull =>
    absurd (show 6 ≤ 0 from hfull.2) (by decide)
  have hnext := @next_cursorAt c (.new 0) [] [] 107 rfl hfull
  rw [if_pos ⟨by decide, by decide, hcrowded⟩] at hnext
  have hreads : 2 ≤ 1 := hwithin.reads _ (ReflTransGen.single hnext)
  omega

end ModeCall

end Ithildin
