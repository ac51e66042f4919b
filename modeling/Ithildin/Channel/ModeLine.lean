import Ithildin.Channel.ChannelMode
import Ithildin.Protocol.ParseRfc

/-!
# MODE lines between servers

* `modeLine`: the line that `channel_mode` sends to the servers with TSMODE;
* `modeCommand`, `receiveMode`: the line tokenised by `ithildin1.c` and executed by `mode.c`;
* `receiveMode_modeLine`: what reaches `channel_mode` at the other server.
-/

namespace Ithildin

open Tokens

/-- The arguments behind the mode string, a blank before each. -/
def flatWords (ws : List Bytes) : Bytes := ws.flatMap fun w => blank :: w

/-- What `output` makes of a message: no more than a packet holds next to CR LF. -/
def packet (text : Bytes) : Bytes := text.take 510

/-- `":sender MODE #channel ts modes args"`. -/
def modeLine (sender name : Bytes) (created : ℤ) (sent : Bytes × Bytes) : Bytes :=
  packet (colon :: (sender ++ blank :: (bytes "MODE" ++ blank :: (name ++ blank ::
    (printLong created ++ blank :: (sent.1 ++ sent.2))))))

/-- The MODE command of a remote client or server for the channel `name`, over a link with
TSMODE. -/
def modeCommand (t : ModeTable) (cl : Clients) (name : Bytes) (server : Bool) (chan : Chan)
    (argv : List Bytes) : Option ModeChange :=
  match argv with
  | cmd :: dest :: ts :: argv =>
      if cmd = bytes "MODE" ∧ dest = name then
        channelMode t cl (.uplink true server false) chan (strConvInt ts 0) argv
      else some ⟨chan, none⟩
  | _ => some ⟨chan, none⟩

/-- A line arrives at a server that holds the channel. -/
def receiveMode (t : ModeTable) (cl : Clients) (o : Origins) (last : ℕ → UInt8) (name : Bytes)
    (chan : Chan) (line : Bytes) : Option ModeChange :=
  match (packetParse .ithildin1 o last (line ++ [0])).1 with
  | .exec (.client _) argv => modeCommand t cl name false chan (argv.map strAt)
  | .exec _ argv => modeCommand t cl name true chan (argv.map strAt)
  | .ignored => some ⟨chan, none⟩

/-! ### The slots -/

theorem strAt_fill {last : UInt8} {arg : Bytes} (h : IsText arg)
    (hlen : arg.length < COMMAND_MAXARGLEN) : strAt (fill last arg) = arg := by
  have hstr := (cString_fill h).mpr (.inl hlen : Fits last arg)
  rw [cString] at hstr
  split at hstr
  · exact Option.some.inj hstr
  · cases hstr

theorem strAt_fillFrom {last : ℕ → UInt8} {args : List Bytes}
    (h : ∀ arg ∈ args, IsText arg ∧ arg.length < COMMAND_MAXARGLEN) (i : ℕ) :
    (fillFrom last i args).map strAt = args := by
  induction args generalizing i with
  | nil => rfl
  | cons arg args ih =>
    obtain ⟨htext, hlen⟩ := h arg List.mem_cons_self
    rw [fillFrom, List.map_cons, strAt_fill htext hlen,
      ih (fun a ha => h a (List.mem_cons_of_mem arg ha))]

/-- The fields of a list are pieces of it. -/
theorem infix_of_mem_fieldsRaw {n : ℕ} {l arg : Bytes} (h : arg ∈ fieldsRaw isSpace colon n l) :
    arg <:+: l := by
  induction n generalizing l with
  | zero =>
    cases l with
    | nil => cases h
    | cons c l =>
      obtain rfl : arg = c :: l := by simpa [fieldsRaw_zero] using h
      exact List.infix_rfl
  | succ n ih =>
    cases l with
    | nil => cases h
    | cons c l =>
      rw [fieldsRaw_succ] at h
      split at h
      · obtain rfl : arg = l := by simpa using h
        exact (List.suffix_cons c arg).isInfix
      · rcases List.mem_cons.mp h with rfl | h
        · exact (List.takeWhile_prefix _).isInfix
        · have htrim := List.dropWhile_suffix (l := afterWord isSpace (c :: l)) isSpace
          have hafter := List.dropWhile_suffix (l := c :: l) fun c => !isSpace c
          exact (ih h).trans (htrim.trans hafter).isInfix

/-- A line with a known sender, tokenised. -/
theorem packetParse_exec {o : Origins} {origin : Origin} (last : ℕ → UInt8) {nick l behind : Bytes}
    {c : UInt8} (hnick : ∀ c ∈ nick, isSpace c = false) (hfind : o.find nick = some origin)
    (hc : isSpace c = false) (htext : IsText (colon :: (nick ++ blank :: c :: l))) :
    (packetParse .ithildin1 o last (colon :: (nick ++ blank :: c :: l) ++ 0 :: behind)).1 =
      .exec origin (fillFrom last 0 (fieldsRaw isSpace colon 14 (c :: l))) := by
  have hat := At.start behind htext
  obtain ⟨hname, hpast⟩ := hat.next.pastPrefix
  have hrest : Rest isSpace (blank :: c :: l) := rfl
  have hafter : afterWord isSpace (nick ++ blank :: c :: l) = blank :: c :: l :=
    afterWord_append hnick hrest
  obtain ⟨r, hr, htrim⟩ := hpast (by rw [hafter]; simp)
  have hcmd : trim isSpace r = c :: l := by
    rw [htrim, hafter, trim_cons_sep rfl, trim_of_not_sep hc]
  have hone : Scan.s (Scan.next ⟨colon :: (nick ++ blank :: c :: l) ++ 0 :: behind, 0, 1⟩) = 1 :=
    rfl
  rw [hone, word_append hnick hrest] at hname
  have hspace := hr.skipSpace
  rw [hcmd] at hspace
  obtain ⟨sc, hargs, -⟩ := parseArgs_at last hspace
  rw [packetParse, serverParse]
  dsimp only
  rw [if_pos hat.cur_cons, hname, hfind]
  dsimp only
  rw [parseCommand, if_neg (by rw [hspace.cur_eq_zero]; simp), hargs]
  rfl

theorem isWord_of_forall {w : Bytes} (hne : w ≠ [])
    (h : ∀ c ∈ w, isSpace c = false ∧ c ≠ 0 ∧ c ≠ colon) : IsWord w := by
  refine ⟨⟨hne, fun c hc => (h c hc).1, fun hhead => ?_⟩, fun h0 => (h 0 h0).2.1 rfl⟩
  exact (h colon (List.mem_of_mem_head? hhead)).2.2 rfl

/-- A timestamp is a word. -/
theorem isWord_printLong {v : ℤ} (h0 : 0 ≤ v) (h : v < 2147483648) : IsWord (printLong v) := by
  have hprint : printLong v = itoa v.toNat := if_neg (by omega)
  have hall : ∀ n < 256, 48 ≤ (UInt8.ofNat n).toNat ∧ (UInt8.ofNat n).toNat ≤ 57 →
      isSpace (UInt8.ofNat n) = false ∧ UInt8.ofNat n ≠ 0 ∧ UInt8.ofNat n ≠ colon := by
    decide +kernel
  obtain ⟨d, r, hcons, -⟩ := exists_itoa_eq_cons (i := v.toNat) (by omega)
  rw [hprint]
  refine isWord_of_forall (by simp [hcons]) fun c hc => ?_
  have hdigit := (digit_of_mem_itoaLoop hc).resolve_left (by simp)
  exact forall_byte (p := fun c => 48 ≤ c.toNat ∧ c.toNat ≤ 57 →
    isSpace c = false ∧ c ≠ 0 ∧ c ≠ colon) hall c hdigit

/-- Over a link with timestamps it makes no difference whom a line is from. -/
theorem channelMode_uplink (t : ModeTable) (cl : Clients) (server : Bool) (chan : Chan) (ts : ℤ)
    (argv : List Bytes) :
    channelMode t cl (.uplink true server false) chan ts argv =
      channelMode t cl (.uplink true false false) chan ts argv := rfl

/-- With the timestamp of the channel the changes are made. -/
theorem channelMode_created (t : ModeTable) (cl : Clients) (chan : Chan) (modes : Bytes)
    (args : List Bytes) :
    channelMode t cl (.uplink true false false) chan chan.created (modes :: args) =
      changeModes t cl none chan modes args := by
  simp [channelMode, acceptTs, ModeSource.cli]

/-- What reaches `channel_mode`: the words, and the fields of what stands behind them. -/
theorem receiveMode_modeLine (t : ModeTable) (cl : Clients) {o : Origins} {origin : Origin}
    (last : ℕ → UInt8) {sender name : Bytes} (chan : Chan) {created : ℤ} {result : Bytes}
    {ws : List Bytes} {r : Bytes} (hsender : IsWord sender) (hfind : o.find sender = some origin)
    (hname : IsWord name) (hts : IsWord (printLong created)) (hresult : IsWord result)
    (hws : ∀ w ∈ ws, IsWord w) (hr : Rest isSpace r) (htext : IsText r) (hcount : ws.length ≤ 6)
    (hlen : sender.length + name.length + (printLong created).length + result.length +
      (flatWords ws ++ r).length ≤ 501) :
    receiveMode t cl o last name chan (modeLine sender name created (result, flatWords ws ++ r)) =
      channelMode t cl (.uplink true false false) chan (strConvInt (printLong created) 0)
        (result :: (ws ++ fieldsRaw isSpace colon (10 - ws.length) (trim isSpace r))) := by
  have hmode : IsWord (bytes "MODE") := by decide +kernel
  have hwords : ∀ w ∈ name :: printLong created :: result :: ws, IsWord w := by
    simp only [List.mem_cons]
    rintro w (rfl | rfl | rfl | hw)
    · exact hname
    · exact hts
    · exact hresult
    · exact hws w hw
  -- the text behind the sender
  set l := bytes "MODE" ++ ((name :: printLong created :: result :: ws).flatMap
    (fun w => blank :: w) ++ r) with hl
  have hline : modeLine sender name created (result, flatWords ws ++ r) =
      colon :: (sender ++ blank :: l) := by
    have hfour : (bytes "MODE").length = 4 := rfl
    rw [modeLine, packet, List.take_of_length_le]
    · simp [hl, flatWords]
    · simp only [List.length_cons, List.length_append, hfour] at hlen ⊢
      omega
  have hfields : fieldsRaw isSpace colon 14 l = bytes "MODE" :: name :: printLong created ::
      result :: (ws ++ fieldsRaw isSpace colon (10 - ws.length) (trim isSpace r)) := by
    have h := fieldsRaw_words (n := 10 - ws.length) (show isSpace blank = true from rfl) hmode.1
      (fun w hw => (hwords w hw).1) hr
    have hn : 10 - ws.length + (name :: printLong created :: result :: ws).length + 1 = 14 := by
      simp only [List.length_cons]
      omega
    rw [hn] at h
    exact h
  have htextl : IsText l := by
    simp only [hl, IsText, List.mem_append, List.mem_flatMap, List.mem_cons, not_or, not_exists,
      not_and]
    refine ⟨hmode.2, ?_, htext⟩
    intro w hw
    exact ⟨by decide, (hwords w (by simpa using hw)).2⟩
  have hlong : l.length < COMMAND_MAXARGLEN := by
    have hfour : (bytes "MODE").length = 4 := rfl
    simp only [hl, flatWords, List.flatMap_cons, List.length_append, List.length_cons, hfour,
      COMMAND_MAXARGLEN] at hlen ⊢
    omega
  have hmapped : (fillFrom last 0 (fieldsRaw isSpace colon 14 l)).map strAt =
      fieldsRaw isSpace colon 14 l := by
    refine strAt_fillFrom ?_ 0
    intro arg harg
    have hpiece := infix_of_mem_fieldsRaw harg
    exact ⟨fun h0 => htextl (hpiece.mem h0), hpiece.length_le.trans_lt hlong⟩
  have hexec : (packetParse .ithildin1 o last
      (colon :: (sender ++ blank :: l) ++ [0])).1 =
        .exec origin (fillFrom last 0 (fieldsRaw isSpace colon 14 l)) := by
    obtain ⟨l', hl'⟩ : ∃ l', l = 77 :: l' := ⟨_, rfl⟩
    have htextline : IsText (colon :: (sender ++ blank :: l)) := by
      simp only [IsText, List.mem_cons, List.mem_append, not_or]
      exact ⟨by decide, hsender.2, by decide, htextl⟩
    rw [hl'] at htextline ⊢
    exact packetParse_exec last hsender.1.2.1 hfind rfl htextline
  have hreach : ∀ server, modeCommand t cl name server chan
      ((fillFrom last 0 (fieldsRaw isSpace colon 14 l)).map strAt) =
        channelMode t cl (.uplink true false false) chan (strConvInt (printLong created) 0)
          (result :: (ws ++ fieldsRaw isSpace colon (10 - ws.length) (trim isSpace r))) := by
    intro server
    rw [hmapped, hfields, modeCommand, if_pos ⟨rfl, rfl⟩, channelMode_uplink]
  rw [receiveMode, hline, hexec]
  cases origin with
  | self => exact hreach true
  | server name => exact hreach true
  | client nick => exact hreach false

end Ithildin
