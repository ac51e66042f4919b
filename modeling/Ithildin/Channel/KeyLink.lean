import Ithildin.Channel.Key
import Ithildin.Channel.Relay
import Ithildin.Channel.Words
import Ithildin.Lib.Run

/-!
# Keys changed on both sides of a link

Clients on both sides of a link set and unset the key of a channel, and the MODE lines cross.

* `KeyLink`, `KeyState`, `KeyEvent`: the servers, what they hold and what is on the way, and what
  can happen next;
* `KeyLink.step`: a command of a client, or a line that arrives;
* `KeyLink.Settles`: the servers hold the same key once everything has arrived;
* `KeyLink.StepOk`: the condition on a change;
* `KeyLink.settles_iff`: the servers hold the same key in the end of all that can happen exactly
  when every change meets the condition.
-/

namespace Ithildin

open Tokens Replica

/-! ### One change -/

section

variable {t : ModeTable} {cl : Clients} {cli : Option Actor} {chan : Chan} {k : UInt8} {set : Bool}
  {args : List Bytes}

/-- The loop behind the sign. -/
def ModeLoop.signed (chan : Chan) (args : List Bytes) (set : Bool) : ModeLoop :=
  ⟨chan, set, 0, [signByte set], [], args, false⟩

theorem modeChar_start (t : ModeTable) (cl : Clients) (cli : Option Actor) (chan : Chan)
    (args : List Bytes) (set : Bool) :
    modeChar t cl cli (.start chan args) (signByte set) = .signed chan args set := by
  cases set <;> cases cli <;> rfl

theorem chanmodeKey_chan {arg : Option Bytes} (h : (chanmodeKey t cli chan k set arg).res ≠ .ok) :
    (chanmodeKey t cli chan k set arg).chan = chan := by
  unfold chanmodeKey at h ⊢
  grind

theorem reaches_start (hkind : t.kind k = some .key)
    (hroom : ∀ w, args.head? = some w → w.length < RBUF_SIZE) :
    ModeLoop.Reaches cli (.signed chan args set) k := by
  obtain ⟨hplus, hminus⟩ := ne_sign_of_isModeChar (t.isModeChar_of_kind k _ hkind)
  refine ⟨rfl, ?_, hplus, hminus, ?_⟩
  · rintro ⟨-, hmax⟩
    have hle : MAXMODES ≤ 0 := hmax
    exact absurd hle (by decide)
  · cases hargs : args.head? with
    | none => simp [ModeLoop.crowded, ModeLoop.signed, hargs]
    | some w =>
      have hw := hroom w hargs
      rw [ModeLoop.crowded]
      show args.head?.any _ = false
      rw [hargs]
      refine decide_eq_false ?_
      show ¬ RBUF_SIZE - 0 ≤ w.length
      omega

/-- The loop behind a mode string that changes the key. -/
theorem foldl_modeChar_key (cl : Clients) (cli : Option Actor) (chan : Chan) (set : Bool)
    (hkind : t.kind k = some .key)
    (hroom : ∀ w, args.head? = some w → w.length < RBUF_SIZE) :
    [signByte set, k].foldl (modeChar t cl cli) (.start chan args) =
      (ModeLoop.signed chan args set).after k
        (chanmodeKey t cli chan k set args.head?) := by
  have hchange : changeMode t cl cli chan k set args.head? =
      chanmodeKey t cli chan k set args.head? := by
    rw [changeMode, hkind]
    rfl
  rw [List.foldl_cons, List.foldl_cons, List.foldl_nil, modeChar_start,
    modeChar_of_reaches (reaches_start hkind hroom)]
  exact congrArg _ hchange

theorem foldl_modeChar_crowded (hkind : t.kind k = some .key) {w : Bytes}
    (hw : args.head? = some w) (hlen : RBUF_SIZE ≤ w.length) :
    [signByte set, k].foldl (modeChar t cl cli) (.start chan args) =
      { ModeLoop.signed chan args set with skip := true } := by
  obtain ⟨hplus, hminus⟩ := ne_sign_of_isModeChar (t.isModeChar_of_kind k _ hkind)
  have hmax : ¬ (cli.isSome ∧ MAXMODES ≤ (ModeLoop.signed chan args set).mset) :=
    fun h => absurd h.2 (by simp [ModeLoop.signed, MAXMODES])
  have hcrowded : (ModeLoop.signed chan args set).args.head?.any (fun arg =>
      RBUF_SIZE - (ModeLoop.signed chan args set).rbuf.length ≤ arg.length) = true := by
    show args.head?.any _ = true
    rw [hw]
    exact decide_eq_true hlen
  rw [List.foldl_cons, List.foldl_cons, List.foldl_nil, modeChar_start, modeChar,
    if_neg (by simp [ModeLoop.signed]), if_neg hmax, if_neg hplus, if_neg hminus, if_pos hcrowded]

/-- A change of the key is accepted and passed on, or nothing happens. -/
theorem changeModes_key (hkind : t.kind k = some .key) {c : ModeChange}
    (h : changeModes t cl cli chan [signByte set, k] args = some c) :
    (∃ w, args.head? = some w ∧ w.length + 1 < RBUF_SIZE ∧
        (chanmodeKey t cli chan k set (some w)).res = .ok ∧
        c = ⟨(chanmodeKey t cli chan k set (some w)).chan,
          some ([signByte set, k], blank :: w)⟩) ∨
      c = ⟨chan, none⟩ ∧ ∀ w, args.head? = some w → w.length < RBUF_SIZE →
        (chanmodeKey t cli chan k set (some w)).res ≠ .ok := by
  obtain ⟨hplus, hminus⟩ := ne_sign_of_isModeChar (t.isModeChar_of_kind k _ hkind)
  have hfits := @changeModes_of_fits t cl cli chan [signByte set, k] args
  by_cases hroom : ∀ w, args.head? = some w → w.length < RBUF_SIZE
  · have hloop := foldl_modeChar_key cl cli chan set hkind hroom
    by_cases hok : (chanmodeKey t cli chan k set args.head?).res = .ok
    · obtain ⟨w, hw, hused, -⟩ := chanmodeKey_ok hok
      have hafter : (ModeLoop.signed chan args set).after k
          (chanmodeKey t cli chan k set args.head?) =
          { chan := (chanmodeKey t cli chan k set args.head?).chan, plus := set, mset := 1
            result := [signByte set, k], rbuf := blank :: w, args := args.tail
            skip := false } := by
        simp [ModeLoop.after, ModeLoop.signed, hok, hused]
      rw [hafter] at hloop
      by_cases hlen : w.length + 1 < RBUF_SIZE
      · rw [hloop] at hfits
        rw [hfits (by simpa using hlen) (by simp)] at h
        have htrim : trimSign [signByte set, k] = [signByte set, k] := by
          simp [trimSign, hplus, hminus]
        rw [hw] at hok h
        refine .inl ⟨w, hw, hlen, hok, ?_⟩
        rw [← Option.some.inj h]
        simp [ModeLoop.change, htrim]
      · -- the blank and the argument fill `rbuf`, and the NUL goes behind its end
        rw [changeModes, hloop] at h
        have hnone := h.symm.trans (if_neg fun hfits => hlen (by simpa using hfits.1))
        cases hnone
    · have hchan : (chanmodeKey t cli chan k set args.head?).chan = chan :=
        chanmodeKey_chan hok
      have hafter : (ModeLoop.signed chan args set).after k
          (chanmodeKey t cli chan k set args.head?) =
          { chan := chan, plus := set, mset := 0, result := [signByte set], rbuf := []
            args := if (chanmodeKey t cli chan k set args.head?).argused.isSome then args.tail
              else args
            skip := false } := by
        simp only [ModeLoop.after, ModeLoop.signed, hchan, if_neg hok]
        cases (chanmodeKey t cli chan k set args.head?).argused <;> rfl
      rw [hloop, hafter] at hfits
      rw [hfits (by simp [RBUF_SIZE]) (by simp)] at h
      refine .inr ⟨?_, fun w hw _ => ?_⟩
      · rw [← Option.some.inj h]
        simp [ModeLoop.change]
      · rwa [← hw]
  · simp only [not_forall, not_lt] at hroom
    obtain ⟨w, hw, hlen⟩ := hroom
    rw [foldl_modeChar_crowded hkind hw hlen] at hfits
    rw [hfits (by simp [ModeLoop.signed, RBUF_SIZE]) (by simp [ModeLoop.signed])] at h
    refine .inr ⟨?_, fun v hv hshort => ?_⟩
    · rw [← Option.some.inj h]
      simp [ModeLoop.change, ModeLoop.signed]
    · obtain rfl := Option.some.inj (hw.symm.trans hv)
      exact absurd hshort (Nat.not_lt.mpr hlen)

/-- From a server, the channel is the one that `chanmode_key` leaves, or it is refused and left. -/
theorem chan_changeModes_key (hkind : t.kind k = some .key) {c : ModeChange}
    (h : changeModes t cl none chan [signByte set, k] args = some c)
    (hroom : ∀ w, args.head? = some w → w.length < RBUF_SIZE) :
    c.chan = (chanmodeKey t none chan k set args.head?).chan := by
  rcases changeModes_key hkind h with ⟨w, hw, -, -, rfl⟩ | ⟨rfl, hrefused⟩
  · rw [hw]
  · cases hw : args.head? with
    | none => rfl
    | some w => exact (chanmodeKey_chan (hrefused w hw (hroom w hw))).symm

theorem exists_changeModes_key (cl : Clients) (cli : Option Actor) (chan : Chan) (set : Bool)
    (hkind : t.kind k = some .key)
    (hroom : ∀ w, args.head? = some w → w.length + 1 < RBUF_SIZE) :
    ∃ c, changeModes t cl cli chan [signByte set, k] args = some c := by
  have hloop := foldl_modeChar_key cl cli chan set hkind
    fun w hw => (Nat.lt_succ_self _).trans (hroom w hw)
  refine ⟨_, changeModes_of_fits ?_ ?_⟩
  · rw [hloop]
    simp only [ModeLoop.after, ModeLoop.signed]
    by_cases hok : (chanmodeKey t cli chan k set args.head?).res = .ok
    · obtain ⟨w, hw, hused, -⟩ := chanmodeKey_ok hok
      have hlen := hroom w hw
      simpa [hused, hok] using hlen
    · cases (chanmodeKey t cli chan k set args.head?).argused <;> simp [hok, RBUF_SIZE]
  · rw [hloop]
    simp only [ModeLoop.after, ModeLoop.signed]
    split <;> simp

end

/-! ### The servers -/

/-- A MODE line as it is given to `output`. -/
structure ModeMsg where
  sender : Bytes
  created : ℤ
  sent : Bytes × Bytes

def ModeMsg.line (m : ModeMsg) (name : Bytes) : Bytes := modeLine m.sender name m.created m.sent

/-- What the line comes to at a server that has the mode string `"+k"` or `"-k"` from it. -/
def ModeMsg.keyOp (m : ModeMsg) : Op Key :=
  Ithildin.keyOp (m.sent.1.head? == some plusSign) (firstArg m.sent.2)

/-- Both sides hold the same. -/
def SameKey (k : UInt8) (x y : Chan) : Prop :=
  y.modes k = x.modes k ∧ (x.modes k = true → y.key k = x.key k)

/-- Two linked servers that hold a channel with the same timestamp and the same key. -/
structure KeyLink where
  t : ModeTable
  k : UInt8
  kind : t.kind k = some .key
  cl : Bool → Clients
  origins : Bool → Origins
  known : ∀ i, ∀ a ∈ (cl i).online, (origins !i).client ((cl i).nick a) = true
  last : Bool → ℕ → UInt8
  name : Bytes
  name_isWord : IsWord name
  name_length : name.length ≤ CHANLEN
  chan : Bool → Chan
  fits : ∀ i, (chan i).KeyFits k
  created : (chan true).created = (chan false).created
  same : SameKey k (chan false) (chan true)

/-- What the servers hold, and the lines on the way to each of them. -/
structure KeyState where
  chan : Bool → Chan
  wire : Bool → List ModeMsg

/-- A client of one side changes the key, or the first line on the way to one side arrives. -/
inductive KeyEvent
  | change (i : Bool) (a : Actor) (set : Bool) (args : List Bytes)
  | deliver (i : Bool)

namespace KeyLink

def start (s : KeyLink) : KeyState := ⟨s.chan, fun _ => []⟩

/-- `MODE #channel +k key`, or a line that arrives; `none` if a buffer overflows. -/
def step (s : KeyLink) (st : KeyState) : KeyEvent → Option KeyState
  | .change i a set args =>
      if a.id ∈ (s.cl i).online ∧ ∀ w ∈ args, IsText w then
        (channelMode s.t (s.cl i) (.mine a) (st.chan i) (st.chan i).created
          ([signByte set, s.k] :: args)).map fun c =>
            { chan := Function.update st.chan i c.chan
              wire := Function.update st.wire (!i) (st.wire (!i) ++
                (c.sent.map fun sent => ⟨(s.cl i).nick a.id, c.chan.created, sent⟩).toList) }
      else none
  | .deliver i =>
      match st.wire i with
      | [] => none
      | m :: ms =>
          (receiveMode s.t (s.cl i) (s.origins i) (s.last i) s.name (st.chan i)
            (m.line s.name)).map fun c =>
              { chan := Function.update st.chan i c.chan
                wire := Function.update st.wire i ms }

/-- Everything on the way arrives. -/
def deliveries (st : KeyState) : List KeyEvent :=
  List.replicate (st.wire false).length (.deliver false) ++
    List.replicate (st.wire true).length (.deliver true)

/-- Once everything has arrived both servers hold the same key. -/
def Settles (s : KeyLink) (st : KeyState) : Prop :=
  ∃ st', Run.run s.step st (deliveries st) = some st' ∧
    SameKey s.k (st'.chan false) (st'.chan true)

/-- The condition on a change that `chanmode_key` takes.  Of a key that is set, the text that
arrives at the other side must not make a difference to the lowest key that is left in the end. -/
def StepOk (s : KeyLink) (st : KeyState) : KeyEvent → Prop
  | .change i a set args => ∀ w, args.head? = some w → w.length < RBUF_SIZE →
      denied s.t (some a) (st.chan i) = false → (set = true → blank ∉ w ∧ commaSign ∉ w) →
        Replica.Ok ((st.chan i).keyOf s.k)
          (if set then ((⟨w.take PASSWDLEN⟩ : Key) : WithTop Key) else ⊤)
          ((st.wire i).map ModeMsg.keyOp) (keyOp set (firstArg w))
  | .deliver _ => True

/-- A line on the way to one side, as the other side has sent it. -/
structure Sound (s : KeyLink) (i : Bool) (m : ModeMsg) : Prop where
  sender : ∃ a ∈ (s.cl (!i)).online, m.sender = (s.cl (!i)).nick a
  created : m.created = (s.chan false).created
  sent : ∃ set w, m.sent = ([signByte set, s.k], blank :: w) ∧ IsText w ∧
    w.length + 1 < RBUF_SIZE ∧ (set = true → blank ∉ w ∧ commaSign ∉ w)

/-- What holds in every state. -/
structure Inv (s : KeyLink) (st : KeyState) : Prop where
  fits : ∀ i, (st.chan i).KeyFits s.k
  created : ∀ i, (st.chan i).created = (s.chan false).created
  sound : ∀ i, ∀ m ∈ st.wire i, s.Sound i m

/-- The servers as replicas of a key. -/
def pair (s : KeyLink) (st : KeyState) : Pair (WithTop Key) (Op Key) :=
  ⟨fun i => (st.chan i).keyOf s.k, fun i => (st.wire i).map ModeMsg.keyOp⟩

theorem sameKey_iff {k : UInt8} {x y : Chan} : SameKey k x y ↔ x.keyOf k = y.keyOf k := by
  unfold SameKey Chan.keyOf
  cases x.modes k <;> cases y.modes k <;> simp [eq_comm]

theorem Inv.start (s : KeyLink) : s.Inv s.start where
  fits := s.fits
  created := by
    intro i
    cases i
    · rfl
    · exact s.created
  sound := by
    rintro i m ⟨⟩

/-- What `chanmode_key` takes from a client of our own. -/
theorem chanmodeKey_ok_iff {t : ModeTable} {a : Actor} {chan : Chan} {k : UInt8} {set : Bool}
    {w : Bytes} :
    (chanmodeKey t (some a) chan k set (some w)).res = .ok ↔
      denied t (some a) chan = false ∧ (set = true → blank ∉ w ∧ commaSign ∉ w) := by
  unfold chanmodeKey
  grind

/-- What arrives of the text of a key is a piece of it. -/
theorem piece_of_firstArg {w v : Bytes} (h : firstArg w = some v) : v <:+: w :=
  (infix_of_mem_fieldsRaw (List.mem_of_mem_head? h)).trans
    (List.dropWhile_suffix isSpace).isInfix

theorem chanmodeKey_created {t : ModeTable} {cli : Option Actor} {chan : Chan} {k : UInt8}
    {set : Bool} {arg : Option Bytes} :
    (chanmodeKey t cli chan k set arg).chan.created = chan.created := by
  unfold chanmodeKey
  grind [Chan.setKey, Chan.setFlag]

theorem isWord_signed (s : KeyLink) (set : Bool) : IsWord [signByte set, s.k] := by
  refine isWord_of_forall (by simp) fun c hc => plain_of_modeByte ?_
  rcases List.mem_cons.mp hc with rfl | hc
  · cases set
    · exact .inr (.inl rfl)
    · exact .inl rfl
  · obtain rfl := List.mem_singleton.mp hc
    exact .inr (.inr (s.t.isModeChar_of_kind _ _ s.kind))

/-- The arguments behind the mode string of a line. -/
def arguments (w : Bytes) : List Bytes := fieldsRaw isSpace colon 10 (trim isSpace (blank :: w))

theorem head?_arguments (w : Bytes) : (arguments w).head? = firstArg (blank :: w) := by
  rw [arguments, firstArg]
  exact head?_fieldsRaw ..

theorem infix_of_head?_arguments {w v : Bytes} (hv : (arguments w).head? = some v) :
    v <:+: w := by
  have htrim : trim isSpace (blank :: w) = trim isSpace w :=
    trim_cons_sep (show isSpace blank = true from rfl) w
  rw [head?_arguments] at hv
  exact piece_of_firstArg (by rwa [firstArg, ← htrim])

/-- The line reaches `channel_mode` with the timestamp of the channel. -/
theorem receiveMode_line {s : KeyLink}
    (hcreated : 0 ≤ (s.chan false).created ∧ (s.chan false).created < 2147483648) {st : KeyState}
    (hinv : s.Inv st) {i : Bool} {m : ModeMsg} (hm : s.Sound i m) {set : Bool} {w : Bytes}
    (hsent : m.sent = ([signByte set, s.k], blank :: w)) (htext : IsText w)
    (hlen : w.length + 1 < RBUF_SIZE) :
    receiveMode s.t (s.cl i) (s.origins i) (s.last i) s.name (st.chan i) (m.line s.name) =
      changeModes s.t (s.cl i) none (st.chan i) [signByte set, s.k] (arguments w) := by
  obtain ⟨a, ha, hsender⟩ := hm.sender
  have hfind : (s.origins i).find m.sender = some (.client m.sender) := by
    have hknown := s.known (!i) a ha
    rw [Bool.not_not] at hknown
    rw [hsender, Origins.find, if_neg ((s.cl !i).nick_dot a ha), if_pos hknown]
  have hnick := (s.cl !i).nick_length a ha
  have hname := s.name_length
  have hts := length_printLong_le (s.chan false).created
  simp only [NICKLEN] at hnick
  simp only [CHANLEN] at hname
  simp only [RBUF_SIZE] at hlen
  have htext' : IsText (blank :: w) := by simpa using ⟨by decide, htext⟩
  have hnone : ∀ w ∈ ([] : List Bytes), IsWord w := by simp
  have hshort : m.sender.length + s.name.length + (printLong (s.chan false).created).length +
      [signByte set, s.k].length + (flatWords [] ++ blank :: w).length ≤ 501 := by
    simp only [hsender, flatWords, List.flatMap_nil, List.nil_append, List.length_cons,
      List.length_nil]
    omega
  have hreceive := receiveMode_modeLine s.t (s.cl i) (s.last i) (st.chan i)
    (hsender ▸ (s.cl !i).nick_isWord a ha) hfind s.name_isWord
    (isWord_printLong hcreated.1 hcreated.2) (s.isWord_signed set) hnone
    (show Rest isSpace (blank :: w) from rfl) htext' (Nat.zero_le 6) hshort
  rw [strConvInt_printLong hcreated.1 hcreated.2, ← hinv.created i, channelMode_created] at hreceive
  have hline : m.line s.name = modeLine m.sender s.name (st.chan i).created
      ([signByte set, s.k], flatWords [] ++ blank :: w) := by
    rw [ModeMsg.line, hm.created, hinv.created, hsent]
    rfl
  rw [hline, hreceive]
  rfl

/-- A line that arrives changes the key as its message does. -/
theorem deliver {s : KeyLink}
    (hcreated : 0 ≤ (s.chan false).created ∧ (s.chan false).created < 2147483648) {st : KeyState}
    (hinv : s.Inv st) {i : Bool} {m : ModeMsg} (hm : s.Sound i m) :
    ∃ c, receiveMode s.t (s.cl i) (s.origins i) (s.last i) s.name (st.chan i) (m.line s.name) =
        some c ∧
      c.chan.keyOf s.k = apply ((st.chan i).keyOf s.k) m.keyOp ∧ c.chan.KeyFits s.k ∧
      c.chan.created = (st.chan i).created := by
  obtain ⟨set, w, hsent, htext, hlen, hplain⟩ := hm.sent
  have hroom : ∀ v, (arguments w).head? = some v → v.length + 1 < RBUF_SIZE := by
    intro v hv
    have hle := (infix_of_head?_arguments hv).length_le
    omega
  obtain ⟨c, hc⟩ := exists_changeModes_key (s.cl i) none (st.chan i) set s.kind hroom
  have hchan := chan_changeModes_key s.kind hc fun v hv => (Nat.lt_succ_self _).trans (hroom v hv)
  have harg : ∀ v, (arguments w).head? = some v → IsText v :=
    fun v hv h0 => htext ((infix_of_head?_arguments hv).subset h0)
  have hkeyOp : m.keyOp = keyOp set (arguments w).head? := by
    rw [ModeMsg.keyOp, hsent, head?_arguments]
    cases set <;> rfl
  refine ⟨c, ?_, ?_, ?_, ?_⟩
  · rw [receiveMode_line hcreated hinv hm hsent htext hlen]
    exact hc
  · rw [hchan, hkeyOp]
    refine keyOf_chanmodeKey_none (hinv.fits i) harg fun hset v hv => ?_
    obtain ⟨hblank, hcomma⟩ := hplain hset
    have hpiece := (infix_of_head?_arguments hv).subset
    exact ⟨fun h => hblank (hpiece h), fun h => hcomma (hpiece h)⟩
  · rw [hchan]
    exact keyFits_chanmodeKey none (hinv.fits i) harg
  · rw [hchan, chanmodeKey_created]

/-- What a change of a client comes to: it is taken and passed on, or nothing happens. -/
theorem step_change {s : KeyLink} {st st' : KeyState} {i : Bool} {a : Actor} {set : Bool}
    {args : List Bytes} (h : s.step st (.change i a set args) = some st') :
    (∃ w, args.head? = some w ∧ a.id ∈ (s.cl i).online ∧ IsText w ∧ w.length + 1 < RBUF_SIZE ∧
        denied s.t (some a) (st.chan i) = false ∧ (set = true → blank ∉ w ∧ commaSign ∉ w) ∧
        st' = {
          chan := Function.update st.chan i
            (chanmodeKey s.t (some a) (st.chan i) s.k set (some w)).chan
          wire := Function.update st.wire (!i) (st.wire (!i) ++
            [⟨(s.cl i).nick a.id, (st.chan i).created, ([signByte set, s.k], blank :: w)⟩]) }) ∨
      st' = st ∧ ∀ w, args.head? = some w → w.length < RBUF_SIZE →
        ¬ (denied s.t (some a) (st.chan i) = false ∧ (set = true → blank ∉ w ∧ commaSign ∉ w)) := by
  rw [step] at h
  split at h
  · rename_i hwell
    obtain ⟨c, hc, rfl⟩ := Option.map_eq_some_iff.mp h
    have hchange : changeModes s.t (s.cl i) (some a) (st.chan i) [signByte set, s.k] args =
        some c := hc
    rcases changeModes_key s.kind hchange with ⟨w, hw, hlen, hok, rfl⟩ | ⟨rfl, hrefused⟩
    · obtain ⟨hdenied, hplain⟩ := chanmodeKey_ok_iff.mp hok
      refine .inl ⟨w, hw, hwell.1, hwell.2 w (List.mem_of_mem_head? hw), hlen, hdenied, hplain, ?_⟩
      dsimp only
      rw [chanmodeKey_created]
      rfl
    · right
      refine ⟨?_, fun w hw hlen hok => hrefused w hw hlen (chanmodeKey_ok_iff.mpr hok)⟩
      cases st
      simp
  · cases h

theorem step_deliver {s : KeyLink} {st st' : KeyState} {i : Bool}
    (h : s.step st (.deliver i) = some st') :
    ∃ m ms c, st.wire i = m :: ms ∧
      receiveMode s.t (s.cl i) (s.origins i) (s.last i) s.name (st.chan i) (m.line s.name) =
        some c ∧
      st' = { chan := Function.update st.chan i c.chan, wire := Function.update st.wire i ms } := by
  rw [step] at h
  cases hwire : st.wire i with
  | nil =>
    rw [hwire] at h
    cases h
  | cons m ms =>
    rw [hwire] at h
    obtain ⟨c, hc, rfl⟩ := Option.map_eq_some_iff.mp h
    exact ⟨m, ms, c, rfl, hc, rfl⟩

/-- What holds in every state. -/
theorem Inv.step {s : KeyLink}
    (hcreated : 0 ≤ (s.chan false).created ∧ (s.chan false).created < 2147483648)
    {st st' : KeyState} (hinv : s.Inv st) {e : KeyEvent} (h : s.step st e = some st') :
    s.Inv st' := by
  have hupdate : ∀ {i : Bool} {chan : Chan} {wire : Bool → List ModeMsg}, chan.KeyFits s.k →
      chan.created = (s.chan false).created → (∀ j, ∀ m ∈ wire j, s.Sound j m) →
      s.Inv ⟨Function.update st.chan i chan, wire⟩ := by
    intro i chan wire hfits hcr hsound
    refine ⟨fun j => ?_, fun j => ?_, hsound⟩
    · by_cases hj : j = i
      · subst hj
        simpa using hfits
      · simpa [hj] using hinv.fits j
    · by_cases hj : j = i
      · subst hj
        simpa using hcr
      · simpa [hj] using hinv.created j
  cases e with
  | change i a set args =>
    rcases step_change h with ⟨w, -, ha, htext, hlen, -, hplain, rfl⟩ | ⟨rfl, -⟩
    · refine hupdate ?_ ?_ fun j m hm => ?_
      · exact keyFits_chanmodeKey (some a) (hinv.fits i) fun v hv => Option.some.inj hv ▸ htext
      · rw [chanmodeKey_created, hinv.created]
      · by_cases hj : j = !i
        · subst hj
          rw [Function.update_self] at hm
          rcases List.mem_append.mp hm with hm | hm
          · exact hinv.sound _ m hm
          · obtain rfl := List.mem_singleton.mp hm
            refine ⟨⟨a.id, ?_, ?_⟩, hinv.created i, set, w, rfl, htext, hlen, hplain⟩
            · rwa [Bool.not_not]
            · rw [Bool.not_not]
        · rw [Function.update_of_ne hj] at hm
          exact hinv.sound j m hm
    · exact hinv
  | deliver i =>
    obtain ⟨m, ms, c, hwire, hc, rfl⟩ := step_deliver h
    obtain ⟨c', hc', -, hfits, hcr⟩ := deliver hcreated hinv (hinv.sound i m (by simp [hwire]))
    obtain rfl := Option.some.inj (hc.symm.trans hc')
    refine hupdate hfits (hcr.trans (hinv.created i)) fun j m' hm => ?_
    by_cases hj : j = i
    · subst hj
      rw [Function.update_self] at hm
      exact hinv.sound j m' (by rw [hwire]; exact List.mem_cons_of_mem _ hm)
    · rw [Function.update_of_ne hj] at hm
      exact hinv.sound j m' hm

/-- A line that arrives is a message that arrives. -/
theorem pair_deliver {s : KeyLink}
    (hcreated : 0 ≤ (s.chan false).created ∧ (s.chan false).created < 2147483648)
    {st st' : KeyState} (hinv : s.Inv st) {i : Bool} (h : s.step st (.deliver i) = some st') :
    ∃ o os, (s.pair st).wire i = o :: os ∧ s.pair st' = (s.pair st).deliver apply i o os := by
  obtain ⟨m, ms, c, hwire, hc, rfl⟩ := step_deliver h
  obtain ⟨c', hc', hkey, -⟩ := deliver hcreated hinv (hinv.sound i m (by simp [hwire]))
  obtain rfl := Option.some.inj (hc.symm.trans hc')
  refine ⟨m.keyOp, ms.map ModeMsg.keyOp, by simp [pair, hwire], ?_⟩
  rw [pair, Pair.deliver]
  congr 1
  · funext j
    by_cases hj : j = i
    · subst hj
      simpa [pair] using hkey
    · simp [pair, hj]
  · funext j
    by_cases hj : j = i
    · subst hj
      simp
    · simp [pair, hj]

/-- Servers that agree do so after an event exactly when it meets its condition. -/
theorem agree_step_iff {s : KeyLink}
    (hcreated : 0 ≤ (s.chan false).created ∧ (s.chan false).created < 2147483648)
    {st st' : KeyState} (hinv : s.Inv st) (hagree : (s.pair st).Agree apply) {e : KeyEvent}
    (h : s.step st e = some st') : (s.pair st').Agree apply ↔ s.StepOk st e := by
  cases e with
  | deliver i =>
    obtain ⟨o, os, hwire, hpair⟩ := pair_deliver hcreated hinv h
    rw [hpair, agree_deliver_iff hwire]
    exact iff_of_true hagree trivial
  | change i a set args =>
    rcases step_change h with ⟨w, hw, -, htext, hlen, hdenied, hplain, rfl⟩ | ⟨rfl, hrefused⟩
    · set v : WithTop Key := if set then ((⟨w.take PASSWDLEN⟩ : Key) : WithTop Key) else ⊤ with hv
      have hkey : (chanmodeKey s.t (some a) (st.chan i) s.k set (some w)).chan.keyOf s.k = v :=
        keyOf_chanmodeKey_some (chanmodeKey_ok_iff.mpr ⟨hdenied, hplain⟩)
      have hop : (ModeMsg.mk ((s.cl i).nick a.id) (st.chan i).created
          ([signByte set, s.k], blank :: w)).keyOp = keyOp set (firstArg w) := by
        rw [ModeMsg.keyOp]
        have hfirst : firstArg (blank :: w) = firstArg w := by
          rw [firstArg, firstArg, trim_cons_sep (show isSpace blank = true from rfl) w]
        rw [hfirst]
        cases set <;> rfl
      have hpair : s.pair
          { chan := Function.update st.chan i
              (chanmodeKey s.t (some a) (st.chan i) s.k set (some w)).chan
            wire := Function.update st.wire (!i) (st.wire (!i) ++
              [⟨(s.cl i).nick a.id, (st.chan i).created, ([signByte set, s.k], blank :: w)⟩]) } =
          (s.pair st).write i v [keyOp set (firstArg w)] := by
        rw [pair, Pair.write]
        congr 1
        · funext j
          by_cases hj : j = i
          · subst hj
            simp [hkey]
          · simp [pair, hj]
        · funext j
          by_cases hj : j = !i
          · subst hj
            simp [pair, hop]
          · simp [pair, hj]
      rw [hpair, agree_write_iff hagree, commutes_iff]
      · rw [StepOk]
        constructor
        · intro hok w' hw' _ _ _
          obtain rfl := Option.some.inj (hw.symm.trans hw')
          exact hok
        · intro hok
          exact hok w hw ((Nat.lt_succ_self _).trans hlen) hdenied hplain
      · intro hclear
        cases set with
        | false => rfl
        | true =>
          cases hfirst : firstArg w with
          | none => rw [hfirst] at hclear; cases hclear
          | some u => rw [hfirst] at hclear; cases hclear
    · refine iff_of_true hagree ?_
      intro w hw hlen hdenied hplain
      exact absurd ⟨hdenied, hplain⟩ (hrefused w hw hlen)

/-- Everything on the way to one side arrives. -/
theorem run_deliver {s : KeyLink}
    (hcreated : 0 ≤ (s.chan false).created ∧ (s.chan false).created < 2147483648)
    {st : KeyState} (hinv : s.Inv st) {i : Bool} {n : ℕ} (hn : (st.wire i).length = n) :
    ∃ st', Run.run s.step st (List.replicate n (.deliver i)) = some st' ∧ s.Inv st' ∧
      st'.wire i = [] ∧ st'.wire (!i) = st.wire (!i) ∧
        ∀ j, (s.pair st').settled apply j = (s.pair st).settled apply j := by
  induction n generalizing st with
  | zero => exact ⟨st, rfl, hinv, List.length_eq_zero_iff.mp hn, rfl, fun _ => rfl⟩
  | succ n ih =>
    obtain ⟨m, ms, hwire⟩ := List.exists_cons_of_length_eq_add_one hn
    obtain ⟨c, hc, -⟩ := deliver hcreated hinv (hinv.sound i m (by simp [hwire]))
    have hstep : s.step st (.deliver i) = some
        { chan := Function.update st.chan i c.chan, wire := Function.update st.wire i ms } := by
      rw [step, hwire]
      dsimp only
      rw [hc]
      rfl
    obtain ⟨o, os, hpairWire, hpair⟩ := pair_deliver hcreated hinv hstep
    have hlen : (Function.update st.wire i ms i).length = n := by
      rw [Function.update_self]
      rw [hwire, List.length_cons] at hn
      omega
    obtain ⟨st', hrun, hinv', hnil, hother, hsettled⟩ := ih (hinv.step hcreated hstep) hlen
    refine ⟨st', Run.run_cons_eq_some.mpr ⟨_, hstep, hrun⟩, hinv', hnil, ?_, fun j => ?_⟩
    · rw [hother]
      simp
    · rw [hsettled, hpair, settled_deliver hpairWire]

theorem settles_iff_agree {s : KeyLink}
    (hcreated : 0 ≤ (s.chan false).created ∧ (s.chan false).created < 2147483648)
    {st : KeyState} (hinv : s.Inv st) : s.Settles st ↔ (s.pair st).Agree apply := by
  obtain ⟨st₁, hrun₁, hinv₁, hnil₁, hother₁, hsettled₁⟩ :=
    run_deliver hcreated hinv (i := false) rfl
  obtain ⟨st₂, hrun₂, -, hnil₂, hother₂, hsettled₂⟩ :=
    run_deliver hcreated hinv₁ (i := true) (n := (st.wire true).length) (by
      have hother := congrArg List.length hother₁
      exact hother)
  have hrun : Run.run s.step st (deliveries st) = some st₂ := by
    rw [deliveries, Run.run_append, hrun₁]
    exact hrun₂
  have hfalse : st₂.wire false = [] := hother₂.trans hnil₁
  have hheld : ∀ j, (s.pair st).settled apply j = (st₂.chan j).keyOf s.k := by
    intro j
    rw [← hsettled₁ j, ← hsettled₂ j]
    cases j with
    | false => simp [Pair.settled, pair, hfalse]
    | true => simp [Pair.settled, pair, hnil₂]
  rw [Settles, Pair.Agree, hheld, hheld, hrun]
  simp [sameKey_iff]

/-- The servers hold the same key once everything has arrived, whenever that is, exactly when every
change has met its condition.  The timestamp of the channel has to be an `int`. -/
theorem settles_iff (s : KeyLink)
    (hcreated : 0 ≤ (s.chan false).created ∧ (s.chan false).created < 2147483648)
    {events : List KeyEvent} {last : KeyState} (hrun : Run.run s.step s.start events = some last) :
    (∀ before behind st, events = before ++ behind → Run.run s.step s.start before = some st →
        s.Settles st) ↔
      Run.Along s.step s.StepOk s.start events := by
  have hstart : (s.pair s.start).Agree apply := sameKey_iff.mp s.same
  have hreached := Run.forall_reached_iff (P := fun st => (s.pair st).Agree apply)
    (fun st e st' hinv hstep => Inv.step hcreated hinv hstep)
    (fun st e st' hinv hagree hstep => agree_step_iff hcreated hinv hagree hstep)
    (Inv.start s) hstart hrun
  rw [← hreached]
  have hinv : ∀ before st, Run.run s.step s.start before = some st → s.Inv st := by
    intro before st hst
    exact Run.run_induction (I := fun _ => s.Inv) (Inv.start s)
      (fun _ st e st' hinv hstep => Inv.step hcreated hinv hstep) hst
  constructor
  · intro h before behind st heq hst
    exact (settles_iff_agree hcreated (hinv before st hst)).mp (h before behind st heq hst)
  · intro h before behind st heq hst
    exact (settles_iff_agree hcreated (hinv before st hst)).mpr (h before behind st heq hst)

/-- Two servers with one operator each, and the key `b`. -/
def keyB : KeyLink where
  t := coreModes
  k := 107
  kind := rfl
  cl := fun _ => oneClient
  origins := fun _ => ⟨fun _ => false, fun s => s == bytes "a"⟩
  known := by decide
  last := fun _ _ => 0
  name := bytes "#c"
  name_isWord := isWord_hashC
  name_length := length_hashC
  chan := fun _ =>
    { created := 5
      modes := fun m => m == 107
      bans := fun _ => ⟨[], distinct_nil⟩
      key := fun _ => bytes "b"
      limit := fun _ => 0
      users := [0]
      uflags := fun _ m => m == 111 }
  fits := fun _ => ⟨by decide, by decide⟩
  created := rfl
  same := ⟨rfl, fun _ => rfl⟩

/-- A key that is lower than the one both sides hold. -/
theorem settles_of_lower : ∃ last,
    Run.run keyB.step keyB.start [.change false ⟨0, false⟩ true [bytes "a"]] = some last ∧
      keyB.Settles last := by
  have hsome : (Run.run keyB.step keyB.start
      [.change false ⟨0, false⟩ true [bytes "a"]]).isSome := by
    decide +kernel
  obtain ⟨last, hrun⟩ := Option.isSome_iff_exists.mp hsome
  refine ⟨last, hrun, ?_⟩
  refine (settles_iff keyB ⟨by decide, by decide⟩ hrun).mpr ⟨?_, fun _ _ => trivial⟩ _ [] last
    (List.append_nil _).symm hrun
  intro w hw _ _ _
  obtain rfl := Option.some.inj hw
  have hop : keyOp true (firstArg (bytes "a")) = .lower ⟨bytes "a"⟩ := by decide +kernel
  have hkey : (keyB.start.chan false).keyOf keyB.k = ((⟨bytes "b"⟩ : Key) : WithTop Key) := rfl
  rw [hop, hkey]
  refine (ok_lower_iff (by simp [start])).mpr (.inl ?_)
  exact WithTop.coe_le_coe.mpr ((strcmpLe_iff (by decide) (by decide)).mp (by decide))

/-- A key that is higher stays at the side that sets it; the other side keeps the key it has. -/
theorem higher_not_same : ∃ last,
    Run.run keyB.step keyB.start
      [.change false ⟨0, false⟩ true [bytes "c"], .deliver true] = some last ∧
      (last.wire false = [] ∧ last.wire true = []) ∧
        ¬ SameKey keyB.k (last.chan false) (last.chan true) := by
  have hkeys : (Run.run keyB.step keyB.start
      [.change false ⟨0, false⟩ true [bytes "c"], .deliver true]).map (fun st =>
        ((st.wire false).length, (st.wire true).length, (st.chan false).modes 107,
          (st.chan false).key 107, (st.chan true).key 107)) =
      some (0, 0, true, bytes "c", bytes "b") := by
    decide +kernel
  obtain ⟨last, hrun, hlast⟩ := Option.map_eq_some_iff.mp hkeys
  simp only [Prod.mk.injEq] at hlast
  obtain ⟨hfalse, htrue, hmode, hours, htheirs⟩ := hlast
  refine ⟨last, hrun, ⟨List.length_eq_zero_iff.mp hfalse, List.length_eq_zero_iff.mp htrue⟩, ?_⟩
  rintro ⟨-, hsame⟩
  have hkey := hsame hmode
  change (last.chan true).key 107 = (last.chan false).key 107 at hkey
  rw [hours, htheirs] at hkey
  exact absurd hkey (by decide)

end KeyLink

end Ithildin
