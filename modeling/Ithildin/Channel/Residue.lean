import Ithildin.Channel.Slots

/-!
# What a mode leaves behind

The flags of channels and of their members as the words they are, with the table of modes that says
what the bits mean. `chanmode_release` calls the handler of the mode with `CHANMODE_CLEAR` for each
channel; no handler clears a bit then. So a mode that is released while it is set is set again for
whoever requests the letter next (`clean_fails`), and a mode has to be unset everywhere before it is
released (`clean_of_run`).

The data that modes have besides a bit is left out.
-/

namespace Ithildin

/-- The functions that change modes. -/
inductive ChangeFn
  | ban
  | key
  | limit
  | flag
  | reg
  | uflag
  | invite
  deriving DecidableEq

/-- `chan->modes`, and the members of a channel with the flags of their links. -/
structure ModeBits where
  modes : BitVec 64
  users : List ℕ
  flags : ℕ → BitVec 16

/-- The table of modes and the channels. -/
structure ModeWorld where
  table : Slots ChangeFn
  chans : List ℕ
  chan : ℕ → ModeBits

/-- What may happen to modes. -/
inductive ModeAction
  | table (a : SlotAction ChangeFn)
  | change (mode : UInt8) (set : Bool) (cl : Clients) (cli : Option Actor) (chan : ℕ)
    (arg : Option Bytes)
  | changePrefix (pfx : UInt8) (set : Bool) (cl : Clients) (chan : ℕ) (arg : Option Bytes)
  | revert (chan : ℕ) (mode : UInt8)
  | create (chan : ℕ)
  | join (chan cli : ℕ)
  | part (chan cli : ℕ)

namespace ModeBits

variable (t : Slots ChangeFn) (b : ModeBits)

/-- `create_channel`. -/
def empty : ModeBits := ⟨0, [], fun _ => 0⟩

/-- `CHANOP`, which is `chanmode_isprefix`. -/
def chanop (id : ℕ) : Bool :=
  match t.pfxmap atSign with
  | some m => decide (id ∈ b.users) && decide (b.flags id &&& (t.modes m).umask ≠ 0)
  | none => false

/-- Neither an operator of the channel nor from a master server. -/
def denied (cli : Option Actor) : Bool :=
  match cli with
  | some a => !b.chanop t a.id && !a.master
  | none => false

/-- `chanmode_setflag` and `chanmode_unsetflag`. -/
def setFlag (mode : UInt8) (set : Bool) : ModeBits :=
  { b with
    modes := if set then b.modes ||| (t.modes mode).mask else b.modes &&& ~~~(t.modes mode).mask }

/-- A flag of a member is set or unset. -/
def setUflag (cp : ℕ) (mode : UInt8) (set : Bool) : ModeBits :=
  let umask := (t.modes mode).umask
  { b with
    flags := Function.update b.flags cp
      (if set then b.flags cp ||| umask else b.flags cp &&& ~~~umask) }

/-- `chanmode_key`; a server does not set a flag that is set. -/
def chanmodeKey (cli : Option Actor) (mode : UInt8) (set : Bool) (arg : Option Bytes) : ModeBits :=
  match arg with
  | none => b
  | some arg =>
    if b.denied t cli then b
    else if set then
      if blank ∈ arg ∨ commaSign ∈ arg then b
      else if cli.isNone ∧ b.modes &&& (t.modes mode).mask ≠ 0 then b
      else b.setFlag t mode true
    else b.setFlag t mode false

/-- `chanmode_limit`. -/
def chanmodeLimit (cli : Option Actor) (mode : UInt8) (set : Bool) (arg : Option Bytes) :
    ModeBits :=
  if b.denied t cli then b
  else if set then
    match arg with
    | none => b
    | some arg => if limitOf arg = 0 then b else b.setFlag t mode true
  else b.setFlag t mode false

/-- `chanmode_flag`, which `chanmode_i` is too. -/
def chanmodeFlag (cli : Option Actor) (mode : UInt8) (set : Bool) : ModeBits :=
  if b.denied t cli then b else b.setFlag t mode set

/-- `chanmode_reg`. -/
def chanmodeReg (cli : Option Actor) (mode : UInt8) (set : Bool) : ModeBits :=
  if cli.any fun a => !a.master then b else b.setFlag t mode set

/-- `chanmode_uflag`. -/
def chanmodeUflag (cl : Clients) (cli : Option Actor) (mode : UInt8) (set : Bool)
    (arg : Option Bytes) : ModeBits :=
  if b.denied t cli then b
  else
    match arg.bind cl.getHistory with
    | none => b
    | some cp => if cp ∉ b.users then b else b.setUflag t cp mode set

/-- The handler of a mode is called. Bans are no flags. -/
def changefn (cl : Clients) (cli : Option Actor) (mode : UInt8) (set : Bool) (arg : Option Bytes) :
    ChangeFn → ModeBits
  | .ban => b
  | .key => b.chanmodeKey t cli mode set arg
  | .limit => b.chanmodeLimit t cli mode set arg
  | .flag => b.chanmodeFlag t cli mode set
  | .reg => b.chanmodeReg t cli mode set
  | .uflag => b.chanmodeUflag t cl cli mode set arg
  | .invite => b.chanmodeFlag t cli mode set

/-- The handler of a mode is called with `CHANMODE_CLEAR`: bans and invites are freed, flags
stay. -/
def clearfn : ChangeFn → ModeBits
  | .ban => b
  | .key => b
  | .limit => b
  | .flag => b
  | .reg => b
  | .uflag => b
  | .invite => b

end ModeBits

namespace ModeWorld

variable (s : ModeWorld)

/-- No mode and no channel. -/
def start : ModeWorld := ⟨Slots.start, [], fun _ => .empty⟩

/-- A channel is changed. -/
def put (chan : ℕ) (b : ModeBits) : ModeWorld := { s with chan := Function.update s.chan chan b }

/-- `chanmode_release`. -/
def chanmodeRelease (mode : UInt8) : Option ModeWorld :=
  match (s.table.modes mode).changefunc with
  | none => none
  | some changefn => (s.table.chanmodeRelease mode).map fun table =>
      { s with
        table := table
        chan := fun k => if k ∈ s.chans then (s.chan k).clearfn changefn else s.chan k }

/-- The handler of the mode `cmp` of the table is called. -/
def call (cmp : UInt8) (set : Bool) (cl : Clients) (cli : Option Actor) (chan : ℕ)
    (arg : Option Bytes) : Option ModeWorld :=
  match (s.table.modes cmp).changefunc with
  | none => none
  | some changefn =>
    some (s.put chan ((s.chan chan).changefn s.table cl cli (s.table.modes cmp).mode set arg
      changefn))

/-- `chanmode_set` and `chanmode_unset`. -/
def chanmodeChange (mode : UInt8) (set : Bool) (cl : Clients) (cli : Option Actor) (chan : ℕ)
    (arg : Option Bytes) : Option ModeWorld :=
  if (s.table.modes mode).avail ∨ (s.table.modes mode).mask = 0 then some s
  else s.call mode set cl cli chan arg

/-- `chanmode_setprefix` and `chanmode_unsetprefix`. -/
def chanmodeChangePrefix (pfx : UInt8) (set : Bool) (cl : Clients) (chan : ℕ)
    (arg : Option Bytes) : Option ModeWorld :=
  match s.table.pfxmap pfx with
  | none => some s
  | some cmp => s.call cmp set cl none chan arg

/-- A prefix mode is taken from the members of a channel that has turned out younger than another
server's. -/
def revert (chan : ℕ) (mode : UInt8) : ModeWorld :=
  if (s.table.modes mode).flags &&& CHANMODE_FL_PREFIX ≠ 0 then
    s.put chan { s.chan chan with
      flags := fun u => (s.chan chan).flags u &&& ~~~(s.table.modes mode).umask }
  else s

/-- `add_to_channel`. -/
def addToChannel (cli chan : ℕ) : ModeWorld :=
  s.put chan { s.chan chan with
    users := cli :: (s.chan chan).users
    flags := Function.update (s.chan chan).flags cli 0 }

/-- `del_from_channel`; an empty channel is destroyed. -/
def delFromChannel (cli chan : ℕ) : ModeWorld :=
  let users := (s.chan chan).users.erase cli
  { s.put chan { s.chan chan with users := users } with
    chans := if users = [] then s.chans.erase chan else s.chans }

/-- A step. -/
def step (s : ModeWorld) : ModeAction → Option ModeWorld
  | .table (.release mode) => s.chanmodeRelease mode
  | .table a => (Slots.step s.table a).map fun table => { s with table := table }
  | .change mode set cl cli chan arg =>
    if chan ∈ s.chans then s.chanmodeChange mode set cl cli chan arg else none
  | .changePrefix pfx set cl chan arg =>
    if chan ∈ s.chans then s.chanmodeChangePrefix pfx set cl chan arg else none
  | .revert chan mode => if chan ∈ s.chans then some (s.revert chan mode) else none
  | .create chan =>
    if chan ∉ s.chans then some { s.put chan .empty with chans := chan :: s.chans } else none
  | .join chan cli =>
    if chan ∈ s.chans ∧ cli ∉ (s.chan chan).users then some (s.addToChannel cli chan) else none
  | .part chan cli => if chan ∈ s.chans then some (s.delFromChannel cli chan) else none

/-! ### What is to hold -/

/-- No channel has the mask of a mode, and no member has its user mask. -/
def Unset (mask : BitVec 64) (umask : BitVec 16) : Prop :=
  ∀ k ∈ s.chans, (s.chan k).modes &&& mask = 0 ∧ ∀ u ∈ (s.chan k).users,
    (s.chan k).flags u &&& umask = 0

instance (mask : BitVec 64) (umask : BitVec 16) : Decidable (s.Unset mask umask) := by
  unfold Unset
  infer_instance

/-- A mode that has been released leaves nothing behind, and one that is granted starts out
unset. -/
def Clean (s : ModeWorld) : ModeAction → Prop
  | .table (.release mode) =>
    ∀ s' ∈ s.chanmodeRelease mode, s'.Unset (s.table.modes mode).mask (s.table.modes mode).umask
  | .table (.request suggested flags changefn queryfn extra extdata) =>
    ∀ r ∈ s.table.chanmodeRequest suggested flags changefn queryfn extra extdata,
      ∀ granted ∈ r.1, s.Unset granted.2 (r.2.modes granted.1).umask
  | _ => True

/-- A mode is released when it is set nowhere; and where all bits for members are taken, and a
prefix mode is requested all the same, no member has the last one. -/
def Tidy (s : ModeWorld) : ModeAction → Prop
  | .table (.release mode) => s.Unset (s.table.modes mode).mask (s.table.modes mode).umask
  | .table (.request suggested flags changefn queryfn extra extdata) =>
    s.table.Room (.request suggested flags changefn queryfn extra extdata) ∨
      s.Unset 0 (BitVec.twoPow 16 15)
  | _ => True

end ModeWorld

namespace ModeBits

variable {t : Slots ChangeFn} {b : ModeBits}

/-! ### One channel -/

variable (t b) in
/-- What is set belongs to modes that are held. -/
structure Explained : Prop where
  modes : ∀ c, isModeChar c = true → c ∉ t.held → b.modes &&& modeMask c = 0
  flags : ∀ u ∈ b.users, ∀ i < 16, (b.flags u).getLsbD i = true →
    ∃ c ∈ t.held, (t.modes c).umask = BitVec.twoPow 16 i

theorem explained_empty : empty.Explained t where
  modes _ _ _ := BitVec.zero_and
  flags _ hu := absurd hu List.not_mem_nil

theorem clearfn_eq (b : ModeBits) (f : ChangeFn) : b.clearfn f = b := by
  cases f with
  | ban => rfl
  | key => rfl
  | limit => rfl
  | flag => rfl
  | reg => rfl
  | uflag => rfl
  | invite => rfl

/-- What a handler does to the flags. -/
theorem changefn_cases (t : Slots ChangeFn) (b : ModeBits) (cl : Clients) (cli : Option Actor)
    (mode : UInt8) (set : Bool) (arg : Option Bytes) (f : ChangeFn) :
    b.changefn t cl cli mode set arg f = b ∨
      b.changefn t cl cli mode set arg f = b.setFlag t mode set ∨
      ∃ cp, b.changefn t cl cli mode set arg f = b.setUflag t cp mode set := by
  cases f with
  | ban => exact .inl rfl
  | key =>
    show b.chanmodeKey t cli mode set arg = b ∨ b.chanmodeKey t cli mode set arg = _ ∨ _
    unfold chanmodeKey
    cases arg with
    | none => exact .inl rfl
    | some arg =>
      dsimp only
      split_ifs with h₁ h₂ h₃ h₄
      · exact .inl rfl
      · exact .inl rfl
      · exact .inl rfl
      · exact .inr (.inl (by rw [h₂]))
      · exact .inr (.inl (by rw [Bool.not_eq_true _ |>.mp h₂]))
  | limit =>
    show b.chanmodeLimit t cli mode set arg = b ∨ b.chanmodeLimit t cli mode set arg = _ ∨ _
    unfold chanmodeLimit
    split_ifs with h₁ h₂
    · exact .inl rfl
    · cases arg with
      | none => exact .inl rfl
      | some arg =>
        dsimp only
        split_ifs
        · exact .inl rfl
        · exact .inr (.inl (by rw [h₂]))
    · exact .inr (.inl (by rw [Bool.not_eq_true _ |>.mp h₂]))
  | flag =>
    show b.chanmodeFlag t cli mode set = b ∨ b.chanmodeFlag t cli mode set = _ ∨ _
    unfold chanmodeFlag
    split_ifs
    · exact .inl rfl
    · exact .inr (.inl rfl)
  | reg =>
    show b.chanmodeReg t cli mode set = b ∨ b.chanmodeReg t cli mode set = _ ∨ _
    unfold chanmodeReg
    split_ifs
    · exact .inl rfl
    · exact .inr (.inl rfl)
  | uflag =>
    show b.chanmodeUflag t cl cli mode set arg = b ∨ _ ∨
      ∃ cp, b.chanmodeUflag t cl cli mode set arg = _
    unfold chanmodeUflag
    split_ifs
    · exact .inl rfl
    · cases arg.bind cl.getHistory with
      | none => exact .inl rfl
      | some cp =>
        dsimp only
        split_ifs
        · exact .inr (.inr ⟨cp, rfl⟩)
        · exact .inl rfl
  | invite =>
    show b.chanmodeFlag t cli mode set = b ∨ b.chanmodeFlag t cli mode set = _ ∨ _
    unfold chanmodeFlag
    split_ifs
    · exact .inl rfl
    · exact .inr (.inl rfl)

theorem Explained.setFlag (hb : b.Explained t) (ht : t.Sound) {mode : UInt8}
    (hheld : mode ∈ t.held) (set : Bool) : (b.setFlag t mode set).Explained t where
  modes c hc hno := by
    have hold := hb.modes c hc hno
    have hnew : (t.modes mode).mask &&& modeMask c = 0 := by
      rw [ht.mask]
      refine Slots.modeMask_and_modeMask (ht.held mode hheld) hc ?_
      rintro rfl
      exact hno hheld
    cases set with
    | true =>
      show (b.modes ||| (t.modes mode).mask) &&& modeMask c = 0
      rw [BitVec.and_or_distrib_right, hold, hnew]
      rfl
    | false =>
      show b.modes &&& ~~~(t.modes mode).mask &&& modeMask c = 0
      rw [BitVec.and_assoc, BitVec.and_comm (~~~_), ← BitVec.and_assoc, hold]
      exact BitVec.zero_and
  flags := hb.flags

/-- The bits of a user mask are those of a mode that is held. -/
theorem Explained.setUflag (hb : b.Explained t) (ht : t.Sound) {mode : UInt8}
    (hheld : mode ∈ t.held) (cp : ℕ) (set : Bool) : (b.setUflag t cp mode set).Explained t where
  modes := hb.modes
  flags u hu i hi hbit := by
    by_cases hcp : u = cp
    · subst hcp
      have hflags : (b.flags u).getLsbD i = true ∨ (t.modes mode).umask.getLsbD i = true := by
        change (Function.update b.flags u _ u).getLsbD i = true at hbit
        rw [Function.update_self] at hbit
        cases set with
        | true => simpa [BitVec.getLsbD_or] using hbit
        | false =>
          rw [if_neg Bool.false_ne_true, BitVec.getLsbD_and, Bool.and_eq_true] at hbit
          exact .inl hbit.1
      obtain hflags | humask := hflags
      · exact hb.flags u hu i hi hflags
      · exact ⟨mode, hheld, (ht.bits.getLsbD mode hi).mp humask⟩
    · change (Function.update b.flags cp _ u).getLsbD i = true at hbit
      rw [Function.update_of_ne hcp] at hbit
      exact hb.flags u hu i hi hbit

theorem Explained.changefn (hb : b.Explained t) (ht : t.Sound) {mode : UInt8}
    (hheld : mode ∈ t.held) (cl : Clients) (cli : Option Actor) (set : Bool) (arg : Option Bytes)
    (f : ChangeFn) : (b.changefn t cl cli mode set arg f).Explained t := by
  obtain heq | heq | ⟨cp, heq⟩ := changefn_cases t b cl cli mode set arg f
  · rwa [heq]
  · rw [heq]
    exact hb.setFlag ht hheld set
  · rw [heq]
    exact hb.setUflag ht hheld cp set

/-- A mode that is granted is explained as soon as it is held. -/
theorem Explained.granted (hb : b.Explained t) {t' : Slots ChangeFn} {c : UInt8}
    {md : Slot ChangeFn} (hc : c ∉ t.held) (hmodes : t'.modes = Function.update t.modes c md)
    (hheld : t'.held = c :: t.held) : b.Explained t' where
  modes d hd hno := by
    rw [hheld, List.mem_cons, not_or] at hno
    exact hb.modes d hd hno.2
  flags u hu i hi hbit := by
    obtain ⟨d, hd, humask⟩ := hb.flags u hu i hi hbit
    refine ⟨d, by rw [hheld]; exact List.mem_cons_of_mem c hd, ?_⟩
    rw [hmodes, Function.update_of_ne]
    · exact humask
    · rintro rfl
      exact hc hd

/-- A mode that is not set is not missed. -/
theorem Explained.released (hb : b.Explained t) (ht : t.Sound) {t' : Slots ChangeFn}
    {mode : UInt8} (h : t.chanmodeRelease mode = some t')
    (hmodes : b.modes &&& (t.modes mode).mask = 0)
    (hflags : ∀ u ∈ b.users, b.flags u &&& (t.modes mode).umask = 0) : b.Explained t' := by
  obtain ⟨-, hheld, -, hupdate⟩ := Slots.release_eq_some h
  have hmem : ∀ c, c ∈ t'.held ↔ c ≠ mode ∧ c ∈ t.held := by
    intro c
    rw [hheld, ht.nodup.mem_erase_iff]
  constructor
  · intro c hc hno
    by_cases hcm : c = mode
    · rw [hcm, ← ht.mask]
      exact hmodes
    · exact hb.modes c hc fun hc' => hno ((hmem c).mpr ⟨hcm, hc'⟩)
  · intro u hu i hi hbit
    obtain ⟨d, hd, humask⟩ := hb.flags u hu i hi hbit
    have hdm : d ≠ mode := by
      rintro rfl
      have hzero : (b.flags u &&& (t.modes d).umask).getLsbD i = false := by
        rw [hflags u hu]
        exact BitVec.getLsbD_zero
      rw [BitVec.getLsbD_and, hbit, humask, BitVec.getLsbD_twoPow] at hzero
      simp [hi] at hzero
    refine ⟨d, (hmem d).mpr ⟨hdm, hd⟩, ?_⟩
    rw [hupdate, Function.update_of_ne hdm]
    exact humask

theorem Explained.congr (hb : b.Explained t) {b' : ModeBits} (hmodes : b'.modes = b.modes)
    (hflags : ∀ u ∈ b'.users, b'.flags u = 0 ∨ u ∈ b.users ∧
      ∀ i, (b'.flags u).getLsbD i = true → (b.flags u).getLsbD i = true) : b'.Explained t where
  modes c hc hno := by
    rw [hmodes]
    exact hb.modes c hc hno
  flags u hu i hi hbit := by
    obtain h0 | ⟨hu', hsub⟩ := hflags u hu
    · rw [h0] at hbit
      simp at hbit
    · exact hb.flags u hu' i hi (hsub i hbit)

end ModeBits

namespace ModeWorld

variable {s : ModeWorld}

variable (s) in
/-- What the steps keep. -/
structure Accounted : Prop where
  sound : s.table.Sound
  explained : ∀ k ∈ s.chans, (s.chan k).Explained s.table

theorem accounted_start : start.Accounted where
  sound := Slots.sound_start
  explained _ hk := absurd hk List.not_mem_nil

theorem Accounted.put (hs : s.Accounted) {chan : ℕ} {b : ModeBits} (hb : b.Explained s.table) :
    (s.put chan b).Accounted where
  sound := hs.sound
  explained k hk := by
    show (Function.update s.chan chan b k).Explained s.table
    by_cases hkc : k = chan
    · subst hkc
      rwa [Function.update_self]
    · rw [Function.update_of_ne hkc]
      exact hs.explained k hk

theorem Accounted.call (hs : s.Accounted) {cmp : UInt8} {set : Bool} {cl : Clients}
    {cli : Option Actor} {chan : ℕ} {arg : Option Bytes} {s' : ModeWorld} (hchan : chan ∈ s.chans)
    (h : s.call cmp set cl cli chan arg = some s') : s'.Accounted := by
  unfold ModeWorld.call at h
  have hheld : (s.table.modes cmp).changefunc ≠ none → cmp ∈ s.table.held := by
    intro hne
    by_contra hno
    exact hne (hs.sound.changefunc cmp hno)
  cases hf : (s.table.modes cmp).changefunc with
  | none =>
    rw [hf] at h
    exact absurd h (by simp)
  | some f =>
    rw [hf] at h
    obtain rfl := Option.some.inj h
    have hcmp : cmp ∈ s.table.held := hheld (by rw [hf]; simp)
    have hmode : (s.table.modes cmp).mode = cmp := by
      rw [hs.sound.mode, if_pos (hs.sound.held cmp hcmp)]
    rw [hmode]
    exact hs.put ((hs.explained chan hchan).changefn hs.sound hcmp cl cli set arg f)

/-- The handlers clear nothing: only the table changes. -/
theorem chanmodeRelease_eq_some {mode : UInt8} {s' : ModeWorld}
    (h : s.chanmodeRelease mode = some s') :
    ∃ table, s.table.chanmodeRelease mode = some table ∧ s' = { s with table := table } := by
  unfold chanmodeRelease at h
  cases hf : (s.table.modes mode).changefunc with
  | none =>
    rw [hf] at h
    exact absurd h (by simp)
  | some f =>
    rw [hf] at h
    obtain ⟨table, htable, rfl⟩ := Option.map_eq_some_iff.mp h
    refine ⟨table, htable, ?_⟩
    congr 1
    funext k
    rw [ModeBits.clearfn_eq, ite_self]

theorem Accounted.release (hs : s.Accounted) {mode : UInt8} {s' : ModeWorld}
    (hunset : s.Unset (s.table.modes mode).mask (s.table.modes mode).umask)
    (h : s.chanmodeRelease mode = some s') : s'.Accounted := by
  obtain ⟨table, htable, rfl⟩ := chanmodeRelease_eq_some h
  refine ⟨hs.sound.release htable, fun k hk => ?_⟩
  exact (hs.explained k hk).released hs.sound htable (hunset k hk).1 (hunset k hk).2

theorem Accounted.change (hs : s.Accounted) {mode : UInt8} {set : Bool} {cl : Clients}
    {cli : Option Actor} {chan : ℕ} {arg : Option Bytes} {s' : ModeWorld} (hchan : chan ∈ s.chans)
    (h : s.chanmodeChange mode set cl cli chan arg = some s') : s'.Accounted := by
  unfold chanmodeChange at h
  split_ifs at h
  · obtain rfl := Option.some.inj h
    exact hs
  · exact hs.call hchan h

theorem Accounted.changePrefix (hs : s.Accounted) {pfx : UInt8} {set : Bool} {cl : Clients}
    {chan : ℕ} {arg : Option Bytes} {s' : ModeWorld} (hchan : chan ∈ s.chans)
    (h : s.chanmodeChangePrefix pfx set cl chan arg = some s') : s'.Accounted := by
  unfold chanmodeChangePrefix at h
  cases hcmp : s.table.pfxmap pfx with
  | none =>
    rw [hcmp] at h
    obtain rfl := Option.some.inj h
    exact hs
  | some cmp =>
    rw [hcmp] at h
    exact hs.call hchan h

theorem Accounted.revert (hs : s.Accounted) {chan : ℕ} (hchan : chan ∈ s.chans) (mode : UInt8) :
    (s.revert chan mode).Accounted := by
  unfold ModeWorld.revert
  split_ifs
  · refine hs.put ((hs.explained chan hchan).congr rfl fun u hu => .inr ⟨hu, fun i hbit => ?_⟩)
    rw [BitVec.getLsbD_and, Bool.and_eq_true] at hbit
    exact hbit.1
  · exact hs

/-- A new channel has nothing set. -/
theorem Accounted.create (hs : s.Accounted) (chan : ℕ) :
    Accounted { s.put chan .empty with chans := chan :: s.chans } where
  sound := hs.sound
  explained k hk := by
    show (Function.update s.chan chan .empty k).Explained s.table
    by_cases hkc : k = chan
    · subst hkc
      rw [Function.update_self]
      exact ModeBits.explained_empty
    · rw [Function.update_of_ne hkc]
      exact hs.explained k ((List.mem_cons.mp hk).resolve_left hkc)

/-- A new member has no flags. -/
theorem Accounted.addToChannel (hs : s.Accounted) {chan : ℕ} (hchan : chan ∈ s.chans) (cli : ℕ) :
    (s.addToChannel cli chan).Accounted := by
  refine hs.put ((hs.explained chan hchan).congr rfl fun u hu => ?_)
  show Function.update (s.chan chan).flags cli 0 u = 0 ∨ _
  by_cases hu' : u = cli
  · subst hu'
    exact .inl (Function.update_self ..)
  · refine .inr ⟨(List.mem_cons.mp hu).resolve_left hu', fun i hbit => ?_⟩
    change (Function.update (s.chan chan).flags cli 0 u).getLsbD i = true at hbit
    rwa [Function.update_of_ne hu'] at hbit

theorem Accounted.delFromChannel (hs : s.Accounted) {chan : ℕ} (hchan : chan ∈ s.chans)
    (cli : ℕ) : (s.delFromChannel cli chan).Accounted := by
  have hb : ModeBits.Explained s.table
      { s.chan chan with users := (s.chan chan).users.erase cli } :=
    (hs.explained chan hchan).congr rfl fun u hu =>
      .inr ⟨List.mem_of_mem_erase hu, fun _ hbit => hbit⟩
  have hput : (s.put chan _).Accounted := hs.put hb
  refine ⟨hput.sound, fun k hk => hput.explained k ?_⟩
  change k ∈ if (s.chan chan).users.erase cli = [] then s.chans.erase chan else s.chans at hk
  split_ifs at hk
  · exact List.mem_of_mem_erase hk
  · exact hk

theorem Accounted.step (hs : s.Accounted) {a : ModeAction} {s' : ModeWorld} (htidy : s.Tidy a)
    (h : ModeWorld.step s a = some s') : s'.Accounted := by
  cases a with
  | table a =>
    cases a with
    | request suggested flags changefn queryfn extra extdata =>
      obtain ⟨table, htable, rfl⟩ := Option.map_eq_some_iff.mp h
      refine ⟨hs.sound.step htable, fun k hk => ?_⟩
      obtain ⟨⟨granted, t⟩, hreq, rfl⟩ := Option.map_eq_some_iff.mp htable
      obtain ⟨-, -, heq⟩ | ⟨c, md, hpick, -, -, hmodes, hheld, -⟩ :=
        Slots.request_cases hs.sound hreq
      · show (s.chan k).Explained t
        rw [heq]
        exact hs.explained k hk
      · exact (hs.explained k hk).granted (hs.sound.pick hpick).2 hmodes hheld
    | release mode => exact hs.release htidy h
  | change mode set cl cli chan arg =>
    rw [ModeWorld.step] at h
    split_ifs at h with hchan
    exact hs.change hchan h
  | changePrefix pfx set cl chan arg =>
    rw [ModeWorld.step] at h
    split_ifs at h with hchan
    exact hs.changePrefix hchan h
  | revert chan mode =>
    rw [ModeWorld.step] at h
    split_ifs at h with hchan
    obtain rfl := Option.some.inj h
    exact hs.revert hchan mode
  | create chan =>
    rw [ModeWorld.step] at h
    split_ifs at h
    obtain rfl := Option.some.inj h
    exact hs.create chan
  | join chan cli =>
    rw [ModeWorld.step] at h
    split_ifs at h with hchan
    obtain rfl := Option.some.inj h
    exact hs.addToChannel hchan.1 cli
  | part chan cli =>
    rw [ModeWorld.step] at h
    split_ifs at h with hchan
    obtain rfl := Option.some.inj h
    exact hs.delFromChannel hchan cli

/-- A tidy step leaves no residue. -/
theorem Accounted.clean (hs : s.Accounted) {a : ModeAction} (htidy : s.Tidy a) : s.Clean a := by
  cases a with
  | table a =>
    cases a with
    | request suggested flags changefn queryfn extra extdata =>
      rintro ⟨_, table⟩ hreq ⟨c, mask⟩ rfl k hk
      obtain ⟨-, hgranted, -⟩ | ⟨c', md, hpick, hmd, hgranted, hmodes, -, -⟩ :=
        Slots.request_cases hs.sound hreq
      · exact absurd hgranted (by simp)
      obtain ⟨hc, rfl⟩ := Prod.mk.inj (Option.some.inj hgranted)
      have hchar := hs.sound.pick hpick
      obtain rfl : c = c' := by rw [hc, hmd.mode, hs.sound.mode, if_pos hchar.1]
      have hb := hs.explained k hk
      constructor
      · rw [hmd.mask, hs.sound.mask]
        exact hb.modes c hchar.1 hchar.2
      · intro u hu
        rw [hmodes, Function.update_self]
        obtain ⟨-, h0, -⟩ | ⟨hflags, i, hi, hbit⟩ := hmd.umask
        · rw [h0]
          exact BitVec.and_zero
        rw [hbit]
        obtain ⟨hlt, hfree, -⟩ := hs.sound.bits.freeBit_eq_some_iff.mp hi
        have hno : ((s.chan k).flags u).getLsbD i = false := by
          rw [← Bool.not_eq_true]
          intro hset
          obtain ⟨d, hd, humask⟩ := hb.flags u hu i hlt hset
          obtain hroom | hunset := htidy
          · exact hs.sound.freeBit (hroom hflags ⟨c, mem_allBytes c, hchar⟩) hi d humask
          · by_cases h15 : i < 15
            · exact hfree h15 d humask
            · obtain rfl : i = 15 := by omega
              have hzero : ((s.chan k).flags u &&& BitVec.twoPow 16 15).getLsbD 15 = false := by
                rw [(hunset k hk).2 u hu]
                exact BitVec.getLsbD_zero
              rw [BitVec.getLsbD_and, hset] at hzero
              exact absurd hzero (by decide)
        rw [BitVec.and_twoPow, hno, if_neg Bool.false_ne_true]
        rfl
    | release mode =>
      intro s' h k hk
      obtain ⟨table, -, rfl⟩ := chanmodeRelease_eq_some h
      exact htidy k hk
  | change mode set cl cli chan arg => trivial
  | changePrefix pfx set cl chan arg => trivial
  | revert chan mode => trivial
  | create chan => trivial
  | join chan cli => trivial
  | part chan cli => trivial

instance (a : ModeAction) : Decidable (s.Clean a) :=
  match a with
  | .table (.request suggested flags changefn queryfn extra extdata) =>
    -- there are finitely many modes and masks, but too many to go through
    have (r : Option (UInt8 × BitVec 64) × Slots ChangeFn) :
        Decidable (∀ granted ∈ r.1, s.Unset granted.2 (r.2.modes granted.1).umask) :=
      Option.decidableForallMem r.1
    inferInstanceAs
      (Decidable (∀ r ∈ s.table.chanmodeRequest suggested flags changefn queryfn extra extdata,
        ∀ granted ∈ r.1, s.Unset granted.2 (r.2.modes granted.1).umask))
  | .table (.release mode) => inferInstanceAs
      (Decidable (∀ s' ∈ s.chanmodeRelease mode,
        s'.Unset (s.table.modes mode).mask (s.table.modes mode).umask))
  | .change .. => isTrue trivial
  | .changePrefix .. => isTrue trivial
  | .revert .. => isTrue trivial
  | .create _ => isTrue trivial
  | .join .. => isTrue trivial
  | .part .. => isTrue trivial

instance (a : ModeAction) : Decidable (s.Tidy a) :=
  match a with
  | .table (.request suggested flags changefn queryfn extra extdata) => inferInstanceAs
      (Decidable (s.table.Room (.request suggested flags changefn queryfn extra extdata) ∨
        s.Unset 0 (BitVec.twoPow 16 15)))
  | .table (.release mode) => inferInstanceAs
      (Decidable (s.Unset (s.table.modes mode).mask (s.table.modes mode).umask))
  | .change .. => isTrue trivial
  | .changePrefix .. => isTrue trivial
  | .revert .. => isTrue trivial
  | .create _ => isTrue trivial
  | .join .. => isTrue trivial
  | .part .. => isTrue trivial

/-- In a run that releases modes only where they are set nowhere, and requests no prefix mode whose
bit a member has, released modes leave nothing behind and new ones start out unset. -/
theorem clean_of_run {as : List ModeAction} (h : Run.Along step Tidy start as) :
    Run.Along step Clean start as :=
  Run.along_of_along (fun _ _ _ hs htidy h => hs.step htidy h) (fun _ _ hs htidy => hs.clean htidy)
    accounted_start h

/-- A mode comes, is set on a channel, is unset or not, and goes. -/
def visit (unset : Bool) : List ModeAction :=
  [.table (.request 109 CHANMODE_FL_D (some .flag) (some .flag) 0 0), .create 0, .join 0 1,
    .change 109 true oneClient none 0 none] ++
  (if unset then [.change 109 false oneClient none 0 none] else []) ++ [.table (.release 109)]

theorem clean_of_run_visit :
    Run.Along step Tidy start (visit true) ∧ Run.Along step Clean start (visit true) := by
  have h : Run.Along step Tidy start (visit true) := by decide +kernel
  exact ⟨h, clean_of_run h⟩

/-- The channel keeps the bit of a mode that was released while it was set. -/
theorem clean_fails : ¬ Run.Along step Clean start (visit false) := by
  decide +kernel

end ModeWorld

end Ithildin
