import Ithildin.Lib.Buffer
import Ithildin.Printf
import Ithildin.Protocol.Input

/-!
# Lines that are sent

`output` of `rfc1459_io.c`.

* `SendMsg`: the buffer and the length of a message; `output` puts one together;
* `Output.head`: what stands before the text;
* `Output.Sent`: how a line should be sent;
* `output_sent_iff`: exactly which lines are.
-/

namespace Ithildin

open Buffer

/-- The length of a line, `MAX_PACKET_LEN`. -/
def MAX_PACKET_LEN : ℕ := 512

/-- `struct send_msg`: the bytes from `buf` on as far as they were stored, and the length. -/
structure SendMsg where
  buf : Bytes
  len : ℕ

/-- The line that is sent. -/
def SendMsg.line (sm : SendMsg) : Bytes := sm.buf.take sm.len

/-- `struct protocol_sender`. -/
inductive ProtocolSender
  | client (nick user host : Bytes)
  | server (name : Bytes)
  | none

/-- The arguments of a call; `target` is the source's `to`. -/
structure Output where
  sender : ProtocolSender
  cmd : Bytes
  target : Option Bytes
  msg : Option Bytes
  args : List Arg

section

-- The text that the library's `vsnprintf` makes of a format and the arguments that are left.  It
-- stores that up to its size, the NUL included, and returns the length of the whole.
variable (library : Bytes → List Arg → Bytes)

/-- A call of `sprintf` (size 0) or `vsnprintf` behind the message. -/
def SendMsg.print (size : ℕ) (pattern : Bytes) (args : List Arg) (sm : SendMsg) :
    Option SendMsg :=
  (vsnprintf size pattern args).map fun printed =>
    match printed with
    | .own out => ⟨storeAt sm.len (out ++ [0]) sm.buf, sm.len + out.length⟩
    | .library args =>
        let text := library pattern args
        let size := if size = 0 then 2147483647 else size
        ⟨storeAt sm.len (text.take (size - 1) ++ [0]) sm.buf, sm.len + text.length⟩

/-- `MAX_PACKET_LEN - sm.len` as a `size_t`. -/
def sizeLeft (len : ℕ) : ℕ :=
  if len ≤ MAX_PACKET_LEN then MAX_PACKET_LEN - len
  else 18446744073709551616 - (len - MAX_PACKET_LEN)

/-- The sender and the command; `long` is `RFC1459_SEND_MSG_LONG`. -/
def printSender (long : Bool) (source : ProtocolSender) (cmd : Bytes) (sm : SendMsg) :
    Option SendMsg :=
  match source with
  | .client nick user host =>
      if long then
        sm.print library 0 (bytes ":%s!%s@%s %s")
          [.str (some nick), .str (some user), .str (some host), .str (some cmd)]
      else sm.print library 0 (bytes ":%s %s") [.str (some nick), .str (some cmd)]
  | .server name => sm.print library 0 (bytes ":%s %s") [.str (some name), .str (some cmd)]
  | .none => sm.print library 0 (bytes "%s") [.str (some cmd)]

/-- `if (to != NULL)`. -/
def printTarget (target msg : Option Bytes) (sm : SendMsg) : Option SendMsg :=
  match target with
  | none => some sm
  | some name =>
      if msg.isNone then sm.print library 0 (bytes " :%s") [.str (some name)]
      else sm.print library 0 (bytes " %s ") [.str (some name)]

/-- `if (msg != NULL)`. -/
def printMsg (target msg : Option Bytes) (args : List Arg) (sm : SendMsg) : Option SendMsg :=
  match msg with
  | none => some sm
  | some msg =>
      let sm := if target.isNone then ⟨storeAt sm.len [blank] sm.buf, sm.len + 1⟩ else sm
      sm.print library (sizeLeft sm.len) msg args

/-- The end of the line. -/
def SendMsg.terminate (sm : SendMsg) : SendMsg :=
  let len := if MAX_PACKET_LEN - 2 < sm.len then MAX_PACKET_LEN - 2 else sm.len
  ⟨storeAt len [cr, newline] sm.buf, len + 2⟩

/-- An empty target is `"*"`. -/
def Output.name (o : Output) : Option Bytes :=
  if o.target = some [] then some (bytes "*") else o.target

/-- `output`, with what the buffer has from the call before. -/
def output (long : Bool) (mem : Bytes) (o : Output) : Option SendMsg := do
  let sm ← printSender library long o.sender o.cmd ⟨mem, 0⟩
  let sm ← printTarget library o.name o.msg sm
  let sm ← printMsg library o.name o.msg o.args sm
  return sm.terminate

/-! ### What should be sent -/

def crLf : Bytes := [cr, newline]

/-- The sender and the command as text. -/
def senderText (long : Bool) (source : ProtocolSender) (cmd : Bytes) : Bytes :=
  match source with
  | .client nick user host =>
      if long then
        colon :: nick ++ bangSign :: user ++ atSign :: host ++ blank :: cmd
      else colon :: nick ++ blank :: cmd
  | .server name => colon :: name ++ blank :: cmd
  | .none => cmd

/-- The target behind that. -/
def targetText (target msg : Option Bytes) : Bytes :=
  match target with
  | none => []
  | some name => if msg.isNone then blank :: colon :: name else blank :: name ++ [blank]

namespace Output

/-- What stands before the formatted text. -/
def head (long : Bool) (o : Output) : Bytes :=
  senderText long o.sender o.cmd ++ targetText o.name o.msg ++
    if o.msg.isSome ∧ o.name.isNone then [blank] else []

/-- The format goes with the arguments. -/
def Matched (o : Output) : Prop := ∀ msg ∈ o.msg, (formatText msg o.args).isSome

/-- What the routine formats itself: the whole text, or what is before the first conversion that is
left to the library. -/
def ownText (o : Output) : Bytes :=
  match o.msg.bind fun msg => formatText msg o.args with
  | none => []
  | some t => t.1

/-- The whole text. -/
def body (o : Output) : Bytes :=
  match o.msg.bind fun msg => formatText msg o.args with
  | none => []
  | some (text, none) => text
  | some (_, some args) => library (o.msg.getD []) args

/-- The strings that a call is made with. -/
def inputs (o : Output) : List Bytes :=
  (match o.sender with
    | .client nick user host => [nick, user, host]
    | .server name => [name]
    | .none => []) ++
  o.cmd :: o.target.toList ++ o.msg.toList ++
  o.args.filterMap fun arg =>
    match arg with
    | .word _ => none
    | .str s => s

/-- A line ends in CR LF and has no more bytes than it may, no byte was stored behind the buffer,
and if no input has a CR LF, the one at the end is the only one. -/
structure Sent (o : Output) (sm : SendMsg) : Prop where
  ends : crLf <:+ sm.line
  short : sm.line.length ≤ MAX_PACKET_LEN
  once : (∀ s ∈ o.inputs, ¬ crLf <:+: s) → ∀ before behind,
    sm.line = before ++ crLf ++ behind → behind = []
  inside : sm.buf.length = MAX_PACKET_LEN

end Output

end

/-! ### Texts that are held -/

/-- The message holds the text and the buffer has its size. -/
structure SendMsg.Holds (sm : SendMsg) (text : Bytes) : Prop where
  bytes : ∃ rest, sm.buf = text ++ rest
  len : sm.len = text.length
  inside : sm.buf.length = MAX_PACKET_LEN

/-- The message holds a text that has room with its NUL, or a store went past the buffer. -/
def SendMsg.Made (sm : SendMsg) (text : Bytes) : Prop :=
  if text.length < MAX_PACKET_LEN then sm.Holds text else MAX_PACKET_LEN < sm.buf.length

theorem SendMsg.Holds.store {sm : SendMsg} {text s : Bytes} (h : sm.Holds text)
    (hroom : text.length + s.length ≤ MAX_PACKET_LEN) :
    ∃ rest, storeAt sm.len s sm.buf = text ++ s ++ rest ∧
      (storeAt sm.len s sm.buf).length = MAX_PACKET_LEN := by
  obtain ⟨⟨rest, hbuf⟩, hlen, hinside⟩ := h
  rw [hbuf, List.length_append] at hinside
  rw [hlen, hbuf, storeAt_append]
  refine ⟨rest.drop s.length, rfl, ?_⟩
  simp only [List.length_append, List.length_drop]
  omega

theorem SendMsg.Holds.store_past {sm : SendMsg} {text s : Bytes} (h : sm.Holds text)
    (hpast : MAX_PACKET_LEN < text.length + s.length) :
    MAX_PACKET_LEN < (storeAt sm.len s sm.buf).length := by
  obtain ⟨⟨rest, hbuf⟩, hlen, hinside⟩ := h
  rw [hlen, hbuf, storeAt_append]
  simp only [List.length_append]
  omega

/-! ### The parts of a line -/

section

variable {library : Bytes → List Arg → Bytes}

theorem length_le_print {size : ℕ} {pattern : Bytes} {args : List Arg} {sm sm' : SendMsg}
    (h : sm.print library size pattern args = some sm') : sm.buf.length ≤ sm'.buf.length := by
  obtain ⟨printed, -, rfl⟩ := Option.map_eq_some_iff.1 h
  cases printed with
  | own out => exact length_le_storeAt _ _ _
  | library args => exact length_le_storeAt _ _ _

/-- `sprintf` behind a text. -/
theorem SendMsg.Made.sprintf {sm : SendMsg} {text pattern t : Bytes} {args : List Arg}
    (h : sm.Made text) (ht : formatText pattern args = some (t, none)) :
    ∃ sm', sm.print library 0 pattern args = some sm' ∧ sm'.Made (text ++ t) := by
  have hcall : vsnprintf 0 pattern args = some (.own (t.take 2147483647)) := by
    show vsnprintf 2147483647 pattern args = _
    rw [vsnprintf_text (by decide) ht, within_none]
  refine ⟨⟨storeAt sm.len (t.take 2147483647 ++ [0]) sm.buf,
    sm.len + (t.take 2147483647).length⟩, by rw [SendMsg.print, hcall]; rfl, ?_⟩
  unfold SendMsg.Made at h ⊢
  rw [List.length_append]
  by_cases htext : text.length < MAX_PACKET_LEN
  · rw [if_pos htext] at h
    by_cases hroom : text.length + t.length < MAX_PACKET_LEN
    · rw [if_pos hroom, List.take_of_length_le (by rw [MAX_PACKET_LEN] at hroom; omega)]
      obtain ⟨rest, hbuf, hinside⟩ := h.store (s := t ++ [0]) (by
        rw [List.length_append]
        exact hroom)
      exact ⟨⟨0 :: rest, by simp [hbuf]⟩, by simp [h.len], hinside⟩
    · rw [if_neg hroom]
      refine h.store_past ?_
      rw [List.length_append, List.length_take, List.length_singleton]
      rw [MAX_PACKET_LEN] at hroom htext ⊢
      omega
  · rw [if_neg htext] at h
    rw [if_neg (by omega)]
    exact h.trans_le (length_le_storeAt _ _ _)

variable (library) in
theorem made_printSender {sm : SendMsg} (h : sm.Made []) (long : Bool) (source : ProtocolSender)
    (cmd : Bytes) :
    ∃ sm', printSender library long source cmd sm = some sm' ∧
      sm'.Made (senderText long source cmd) := by
  have hprint : ∀ {pattern t : Bytes} {args : List Arg}, formatText pattern args = some (t, none) →
      ∃ sm', sm.print library 0 pattern args = some sm' ∧ sm'.Made t := fun ht => h.sprintf ht
  cases source with
  | client nick user host =>
    cases long with
    | true => exact hprint (by simp [formatText, textLoop, bytes, percentSign, senderText, colon,
        bangSign, atSign, blank])
    | false => exact hprint (by simp [formatText, textLoop, bytes, percentSign, senderText, colon,
        blank])
  | server name => exact hprint (by simp [formatText, textLoop, bytes, percentSign, senderText,
      colon, blank])
  | none => exact hprint (by simp [formatText, textLoop, bytes, percentSign, senderText])

variable (library) in
theorem made_printTarget {sm : SendMsg} {text : Bytes} (h : sm.Made text)
    (target msg : Option Bytes) :
    ∃ sm', printTarget library target msg sm = some sm' ∧
      sm'.Made (text ++ targetText target msg) := by
  have hprint : ∀ {pattern t : Bytes} {args : List Arg}, formatText pattern args = some (t, none) →
      ∃ sm', sm.print library 0 pattern args = some sm' ∧ sm'.Made (text ++ t) :=
    fun ht => h.sprintf ht
  cases target with
  | none => exact ⟨sm, rfl, by simpa [targetText] using h⟩
  | some name =>
    cases msg with
    | none =>
      have htext : formatText (bytes " :%s") [.str (some name)] =
          some (blank :: colon :: name, none) := by
        simp [formatText, textLoop, bytes, percentSign, colon, blank]
      exact hprint htext
    | some msg =>
      have htext : formatText (bytes " %s ") [.str (some name)] =
          some (blank :: name ++ [blank], none) := by
        simp [formatText, textLoop, bytes, percentSign, blank]
      exact hprint htext

/-- The message is ready for its end: it holds as much of the text as a line has. -/
structure SendMsg.Ready (sm : SendMsg) (text : Bytes) : Prop where
  bytes : ∃ rest, sm.buf = text.take (MAX_PACKET_LEN - 2) ++ rest
  len : sm.len = text.length
  inside : sm.buf.length = MAX_PACKET_LEN

theorem SendMsg.Holds.ready {sm : SendMsg} {text : Bytes} (h : sm.Holds text) : sm.Ready text := by
  obtain ⟨⟨rest, hbuf⟩, hlen, hinside⟩ := h
  refine ⟨⟨text.drop (MAX_PACKET_LEN - 2) ++ rest, ?_⟩, hlen, hinside⟩
  rw [hbuf, ← List.append_assoc, List.take_append_drop]

/-- The formatted text behind a text that has room. -/
theorem SendMsg.Holds.print {sm : SendMsg} {text pattern : Bytes} {args : List Arg}
    {t : Bytes × Option (List Arg)} (h : sm.Holds text) (ht : formatText pattern args = some t)
    (hroom : text.length < MAX_PACKET_LEN) :
    ∃ sm', sm.print library (sizeLeft sm.len) pattern args = some sm' ∧
      if text.length + t.1.length < MAX_PACKET_LEN then
        sm'.Ready (text ++ t.2.elim t.1 (library pattern))
      else MAX_PACKET_LEN < sm'.buf.length := by
  have hsize : sizeLeft sm.len = MAX_PACKET_LEN - text.length := by
    rw [sizeLeft, h.len, if_pos hroom.le]
  rw [hsize]
  have hcall := vsnprintf_text (show 0 < MAX_PACKET_LEN - text.length by omega) ht
  obtain ⟨out, left⟩ := t
  dsimp only at hcall ⊢
  by_cases hfits : text.length + out.length < MAX_PACKET_LEN
  · simp only [if_pos hfits]
    cases left with
    | none =>
      rw [within_none, List.take_of_length_le (by omega)] at hcall
      refine ⟨_, by rw [SendMsg.print, hcall]; rfl, ?_⟩
      obtain ⟨rest, hbuf, hinside⟩ := h.store (s := out ++ [0]) (by
        rw [List.length_append]
        exact hfits)
      exact SendMsg.Holds.ready ⟨⟨0 :: rest, by simp [hbuf]⟩, by simp [h.len], hinside⟩
    | some left =>
      rw [within_library (by omega)] at hcall
      refine ⟨_, by rw [SendMsg.print, hcall]; rfl, ?_⟩
      have hneg : ¬ MAX_PACKET_LEN - text.length = 0 := by omega
      simp only [if_neg hneg]
      obtain ⟨rest, hbuf, hinside⟩ := h.store
        (s := (library pattern left).take (MAX_PACKET_LEN - text.length - 1) ++ [0]) (by
          rw [List.length_append, List.length_take, List.length_singleton]
          omega)
      have hcut : (text ++ library pattern left).take (MAX_PACKET_LEN - 2) =
          (text ++ (library pattern left).take (MAX_PACKET_LEN - text.length - 1)).take
            (MAX_PACKET_LEN - 2) := by
        rw [List.take_append, List.take_append, List.take_take, Nat.min_eq_left (by omega)]
      refine ⟨⟨(text ++ (library pattern left).take (MAX_PACKET_LEN - text.length - 1)).drop
        (MAX_PACKET_LEN - 2) ++ 0 :: rest, ?_⟩, by simp [h.len], hinside⟩
      rw [Option.elim_some, hcut, ← List.append_assoc, List.take_append_drop, hbuf]
      simp
  · simp only [if_neg hfits]
    rw [within_cut (by omega)] at hcall
    refine ⟨_, by rw [SendMsg.print, hcall]; rfl, ?_⟩
    refine h.store_past ?_
    rw [List.length_append, List.length_take, List.length_singleton]
    omega

/-- A call behind the end of the buffer stores a NUL there. -/
theorem SendMsg.Holds.print_past {sm sm' : SendMsg} {text pattern : Bytes} {args : List Arg}
    {size : ℕ} (h : sm.Holds text) (hfull : MAX_PACKET_LEN ≤ text.length)
    (hprint : sm.print library size pattern args = some sm') :
    MAX_PACKET_LEN < sm'.buf.length := by
  obtain ⟨printed, -, rfl⟩ := Option.map_eq_some_iff.1 hprint
  cases printed with
  | own out =>
    refine h.store_past ?_
    rw [List.length_append, List.length_singleton]
    omega
  | library args =>
    refine h.store_past ?_
    rw [List.length_append, List.length_singleton]
    omega

variable (library) in
theorem print_isSome {size : ℕ} {pattern : Bytes} {args : List Arg}
    {t : Bytes × Option (List Arg)} (ht : formatText pattern args = some t) (sm : SendMsg) :
    ∃ sm', sm.print library size pattern args = some sm' := by
  have hcall : ∃ printed, vsnprintf size pattern args = some printed := by
    rcases Nat.eq_zero_or_pos size with rfl | hsize
    · have hsize : vsnprintf 0 pattern args = vsnprintf 2147483647 pattern args := rfl
      exact ⟨_, hsize.trans (vsnprintf_text (by decide) ht)⟩
    · exact ⟨_, vsnprintf_text hsize ht⟩
  obtain ⟨printed, hprinted⟩ := hcall
  exact ⟨_, by rw [SendMsg.print, hprinted]; rfl⟩

/-- The blank before a format without a target. -/
def gap (target msg : Option Bytes) : Bytes := if msg.isSome ∧ target.isNone then [blank] else []

variable (library) in
theorem ready_printMsg {sm : SendMsg} {text : Bytes} {o : Output} (h : sm.Made text)
    (hmatched : o.Matched) :
    ∃ sm', printMsg library o.name o.msg o.args sm = some sm' ∧
      if (text ++ gap o.name o.msg).length + o.ownText.length < MAX_PACKET_LEN then
        sm'.Ready (text ++ gap o.name o.msg ++ o.body library)
      else MAX_PACKET_LEN < sm'.buf.length := by
  rcases hmsg : o.msg with _ | msg
  · refine ⟨sm, rfl, ?_⟩
    have hown : o.ownText = [] := by simp [Output.ownText, hmsg]
    have hbody : o.body library = [] := by simp [Output.body, hmsg]
    have hgap : gap o.name none = [] := by simp [gap]
    rw [hown, hbody, hgap, List.append_nil, List.append_nil, List.length_nil, Nat.add_zero]
    unfold SendMsg.Made at h
    by_cases hroom : text.length < MAX_PACKET_LEN
    · rw [if_pos hroom] at h ⊢
      exact h.ready
    · rwa [if_neg hroom] at h ⊢
  · obtain ⟨t, ht⟩ := Option.isSome_iff_exists.1 (hmatched msg hmsg)
    have hown : o.ownText = t.1 := by simp [Output.ownText, hmsg, ht]
    have hbody : o.body library = t.2.elim t.1 (library msg) := by
      obtain ⟨out, left⟩ := t
      cases left <;> simp [Output.body, hmsg, ht]
    rw [hown, hbody]
    -- the message with the blank
    obtain ⟨sm₁, hsm₁⟩ : ∃ sm₁ : SendMsg, sm₁ = if o.name.isNone then
      (⟨storeAt sm.len [blank] sm.buf, sm.len + 1⟩ : SendMsg) else sm := ⟨_, rfl⟩
    have hprint : printMsg library o.name (some msg) o.args sm =
        sm₁.print library (sizeLeft sm₁.len) msg o.args := by rw [hsm₁]; rfl
    rw [hprint]
    unfold SendMsg.Made at h
    by_cases hroom : text.length < MAX_PACKET_LEN
    · rw [if_pos hroom] at h
      have hholds : sm₁.Holds (text ++ gap o.name (some msg)) := by
        rcases hname : o.name with _ | name
        · rw [hsm₁, hname]
          obtain ⟨rest, hbuf, hinside⟩ := h.store (s := [blank]) hroom
          exact ⟨⟨rest, hbuf⟩, by simp [h.len, gap], hinside⟩
        · rw [hsm₁, hname]
          simpa [gap] using h
      by_cases hfull : (text ++ gap o.name (some msg)).length < MAX_PACKET_LEN
      · exact hholds.print ht hfull
      · obtain ⟨sm', hsm'⟩ := print_isSome library ht sm₁
        refine ⟨sm', hsm', ?_⟩
        rw [if_neg (by omega)]
        exact hholds.print_past (by omega) hsm'
    · rw [if_neg hroom] at h
      obtain ⟨sm', hsm'⟩ := print_isSome library ht sm₁
      refine ⟨sm', hsm', ?_⟩
      rw [if_neg (by rw [List.length_append]; omega)]
      refine lt_of_lt_of_le (h.trans_le ?_) (length_le_print hsm')
      rw [hsm₁]
      split
      · exact length_le_storeAt _ _ _
      · exact le_rfl

/-- The end of a line. -/
theorem SendMsg.Ready.terminate {sm : SendMsg} {text : Bytes} (h : sm.Ready text) :
    sm.terminate.line = text.take (MAX_PACKET_LEN - 2) ++ crLf ∧
      sm.terminate.buf.length = MAX_PACKET_LEN := by
  obtain ⟨⟨rest, hbuf⟩, hlen, hinside⟩ := h
  have hcut : (if MAX_PACKET_LEN - 2 < sm.len then MAX_PACKET_LEN - 2 else sm.len) =
      (text.take (MAX_PACKET_LEN - 2)).length := by
    rw [List.length_take, hlen]
    split <;> omega
  have hroom : (text.take (MAX_PACKET_LEN - 2)).length ≤ MAX_PACKET_LEN - 2 :=
    List.length_take_le _ _
  have hmax : MAX_PACKET_LEN = 512 := rfl
  rw [hbuf, List.length_append] at hinside
  unfold SendMsg.line SendMsg.terminate
  dsimp only
  rw [hcut, hbuf, storeAt_append]
  refine ⟨List.take_left' (by simp), ?_⟩
  simp only [List.length_append, List.length_drop, List.length_cons, List.length_nil]
  omega

/-- The CR LF at the end is the only one exactly if there is none before it. -/
theorem only_crLf_iff (text : Bytes) :
    (∀ before behind, text ++ crLf = before ++ crLf ++ behind → behind = []) ↔
      ¬ crLf <:+: text := by
  constructor
  · rintro h ⟨before, behind, rfl⟩
    have hnil := h before (behind ++ crLf) (by simp)
    exact absurd (List.append_eq_nil_iff.1 hnil).2 (by decide)
  · intro h before behind heq
    rcases List.append_eq_append_iff.1 heq with ⟨rest, htext, hcr⟩ | ⟨rest, rfl, -⟩
    · -- `rest` is the part of the last CR LF that the other one has
      rcases rest with _ | ⟨a, _ | ⟨b, rest⟩⟩
      · refine absurd ⟨before, [], ?_⟩ h
        simpa using htext
      · obtain ⟨rfl, -⟩ : cr = a ∧ [newline] = behind := by simpa [crLf] using hcr
        have hlast := congrArg List.getLast? htext
        simp [crLf, cr, newline] at hlast
      · simp_all [crLf]
    · exact absurd ⟨before, rest, rfl⟩ h

/-- A line is sent as it should be exactly if what stands before the text, and what the routine
formats itself, have together fewer bytes than a line may have, and no CR LF comes together where
the inputs have none. -/
theorem output_sent_iff (library : Bytes → List Arg → Bytes) (long : Bool)
    (mem : Vector UInt8 MAX_PACKET_LEN) (o : Output) (h : o.Matched) :
    (∃ sm, output library long mem.toList o = some sm ∧ o.Sent sm) ↔
      (o.head long).length + o.ownText.length < MAX_PACKET_LEN ∧
        ((∀ s ∈ o.inputs, ¬ crLf <:+: s) →
          ¬ crLf <:+: (o.head long ++ o.body library).take (MAX_PACKET_LEN - 2)) := by
  have hstart : (⟨mem.toList, 0⟩ : SendMsg).Made [] :=
    ⟨⟨mem.toList, rfl⟩, rfl, mem.length_toList⟩
  obtain ⟨sm₁, hsender, hmade₁⟩ := made_printSender library hstart long o.sender o.cmd
  obtain ⟨sm₂, htarget, hmade₂⟩ := made_printTarget library hmade₁ o.name o.msg
  obtain ⟨sm₃, hmsg, hready⟩ := ready_printMsg library hmade₂ h
  have houtput : output library long mem.toList o = some sm₃.terminate := by
    unfold output
    rw [hsender, Option.bind_eq_bind, Option.bind_some, htarget, Option.bind_some, hmsg]
    rfl
  have hhead : o.head long = senderText long o.sender o.cmd ++ targetText o.name o.msg ++
      gap o.name o.msg := rfl
  rw [← hhead] at hready
  constructor
  · rintro ⟨sm, hsm, hsent⟩
    obtain rfl : sm₃.terminate = sm := Option.some.inj (houtput.symm.trans hsm)
    by_cases hroom : (o.head long).length + o.ownText.length < MAX_PACKET_LEN
    · rw [if_pos hroom] at hready
      refine ⟨hroom, fun hinputs => ?_⟩
      have honce := hsent.once hinputs
      rw [hready.terminate.1, only_crLf_iff] at honce
      exact honce
    · rw [if_neg hroom] at hready
      have hgrown : MAX_PACKET_LEN < sm₃.terminate.buf.length :=
        hready.trans_le (length_le_storeAt _ _ _)
      exact absurd hsent.inside hgrown.ne'
  · rintro ⟨hroom, honce⟩
    rw [if_pos hroom] at hready
    obtain ⟨hline, hinside⟩ := hready.terminate
    refine ⟨_, houtput, ⟨⟨_, hline.symm⟩, ?_, fun hinputs => ?_, hinside⟩⟩
    · rw [hline, List.length_append, List.length_take]
      show _ + 2 ≤ 512
      have hmax : MAX_PACKET_LEN = 512 := rfl
      omega
    · rw [hline, only_crLf_iff]
      exact honce hinputs

/-- What the library makes of `"%5d"` and 42. -/
def padded (_ : Bytes) (args : List Arg) : Bytes :=
  if args = [.word 42] then bytes "   42" else []

/-- A number to a client that is not registered. -/
def Output.number : Output :=
  ⟨.client (bytes "nick") (bytes "user") (bytes "host"), bytes "NOTICE", some [],
    some (bytes "%5d"), [.word 42]⟩

theorem output_sent_number :
    (∃ sm, output padded true (Vector.replicate 512 0).toList Output.number = some sm ∧
        Output.number.Sent sm) ↔
      (Output.number.head true).length + Output.number.ownText.length < MAX_PACKET_LEN ∧
        ((∀ s ∈ Output.number.inputs, ¬ crLf <:+: s) →
          ¬ crLf <:+: (Output.number.head true ++ Output.number.body padded).take
            (MAX_PACKET_LEN - 2)) := by
  refine output_sent_iff padded true (Vector.replicate 512 0) Output.number ?_
  intro msg hmsg
  obtain rfl : bytes "%5d" = msg := Option.some.inj hmsg
  rfl

/-- A text of 491 bytes behind `":irc.net NOTICE nick "`. -/
def Output.text : Output :=
  ⟨.server (bytes "irc.net"), bytes "NOTICE", some (bytes "nick"), some (bytes "%s"),
    [.str (some (List.replicate 491 97))]⟩

/-- Its NUL is stored at `buf[512]`. -/
theorem output_sent_fails :
    Output.text.Matched ∧
      ¬ ∃ sm, output padded true (Vector.replicate 512 0).toList Output.text = some sm ∧
        Output.text.Sent sm := by
  have hlength : (output padded true (Vector.replicate 512 0).toList Output.text).map
      (fun sm => sm.buf.length) = some 513 := by
    decide +kernel
  constructor
  · intro msg hmsg
    obtain rfl : bytes "%s" = msg := Option.some.inj hmsg
    rfl
  · rintro ⟨sm, hsm, hsent⟩
    rw [hsm, Option.map_some, Option.some.injEq, hsent.inside] at hlength
    exact absurd hlength (by decide)

end

end Ithildin
