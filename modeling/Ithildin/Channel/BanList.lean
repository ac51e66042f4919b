import Ithildin.Channel.Modes
import Ithildin.Lib.Run

/-!
# The list of bans

* `cutMask`: a mask cut at its first `'!'` and its first `'@'`, by their positions;
* `chanmodeBanList`: what `chanmode_ban` makes of a list, with the walk that looks for duplicates
  and counts;
* `parts_chanmodeBanList`: it is the list of `chanmodeBan`, read by parts;
* `Lawful`: what a change may do to a list;
* `lawful_along_iff`: from the empty list, all changes are lawful just if there is always room.

The walk counts the entries it comes to, so a list that is exactly full takes one more.
-/

namespace Ithildin

/-- `struct channel_ban`. -/
structure BanEntry where
  nick : Bytes
  user : Bytes
  host : Bytes
  who : Bytes
  setAt : ℤ
  deriving DecidableEq

/-- Who changes a ban, for all that is asked here: a client of our own, one that may do so, and how
it is written down. -/
structure BanSetter where
  mine : Bool
  may : Bool
  who : Bytes

/-- `CHANMODE_SET`, `CHANMODE_UNSET` and `CHANMODE_CLEAR`. -/
inductive BanChange
  | set
  | unset
  | clear
  deriving DecidableEq

/-- The position of the first such byte. -/
def strchr (c : UInt8) (s : Bytes) : Option ℕ := s.findIdx? (· == c)

/-- The parts of a mask, as `chanmode_ban` copies them. -/
def cutMask (arg : Bytes) : Option (Bytes × Bytes × Bytes) :=
  match strchr bangSign arg, strchr atSign arg with
  | some bang, some atPos =>
      if bang = 0 ∨ arg.length = atPos + 1 ∨ bang + 1 = atPos ∨ atPos < bang then none
      else
        let nicklen := bang
        let userlen := atPos - (bang + 1)
        let hostlen := (arg.drop (atPos + 1)).length
        if NICKLEN < nicklen ∨ USERLEN < userlen ∨ HOSTLEN < hostlen then none
        else
          some (arg.take nicklen, (arg.drop (bang + 1)).take userlen,
            (arg.drop (atPos + 1)).take hostlen)
  | _, _ => none

namespace BanEntry

/-- `"%s!%s@%s"`. -/
def text (e : BanEntry) : Bytes := e.nick ++ bangSign :: (e.user ++ atSign :: e.host)

/-- The parts of the entry are these, but for case. -/
def equals (e : BanEntry) (nick user host : Bytes) : Bool :=
  sameCase e.nick nick && sameCase e.user user && sameCase e.host host

end BanEntry

/-- The walk before a ban is set: it is refused at an entry that is one too many for a client of our
own, or that is the same. -/
def banRefused (mine : Bool) (nick user host : Bytes) : ℕ → List BanEntry → Bool
  | _, [] => false
  | cnt, cbp :: banlist =>
      (decide (MAX_BANS_PER_CHANNEL < cnt + 1) && mine) || cbp.equals nick user host ||
        banRefused mine nick user host (cnt + 1) banlist

/-- `chanmode_ban`, as far as the list goes; `me` is the name of this server. -/
def chanmodeBanList (me : Bytes) (now : ℤ) (cli : Option BanSetter) (change : BanChange)
    (arg : Option Bytes) (banlist : List BanEntry) : ModeRes × List BanEntry :=
  if change = .clear then (.ok, [])
  else
    match arg with
    | none => (.nop, banlist)
    | some arg =>
        if cli.any (fun cli => !cli.may) then (.error, banlist)
        else
          match cutMask arg with
          | none => (.fail, banlist)
          | some (nick, user, host) =>
              if change = .set then
                if banRefused (cli.any (·.mine)) nick user host 0 banlist then (.fail, banlist)
                else
                  let cbp : BanEntry := ⟨nick.take NICKLEN, user.take USERLEN, host.take HOSTLEN,
                    (cli.map (·.who)).getD me, now⟩
                  (.ok, cbp :: banlist)
              else (.ok, banlist.eraseP fun cbp => cbp.equals nick user host)

/-! ### Masks -/

section
variable {arg nick user host s t : Bytes} {c : UInt8}

theorem strchr_eq_some_iff {i : ℕ} :
    strchr c s = some i ↔ (s.takeWhile (· != c)).length = i ∧ c ∈ s := by
  induction s generalizing i with
  | nil => simp [strchr]
  | cons d s ih =>
    have ih' : ∀ j, s.findIdx? (· == c) = some j ↔ (s.takeWhile (· != c)).length = j ∧ c ∈ s :=
      fun j => ih
    by_cases hd : d = c
    · subst hd
      simp [strchr, List.findIdx?_cons]
    · have hbeq : (d == c) = false := by simpa using hd
      have hne : (d != c) = true := by simpa using hd
      rw [strchr, List.findIdx?_cons, hbeq, if_neg Bool.false_ne_true, List.takeWhile_cons,
        if_pos hne, List.length_cons, List.mem_cons, or_iff_right (Ne.symm hd),
        Option.map_eq_some_iff]
      constructor
      · rintro ⟨j, hj, rfl⟩
        exact ⟨congrArg (· + 1) ((ih' j).mp hj).1, ((ih' j).mp hj).2⟩
      · rintro ⟨rfl, hmem⟩
        exact ⟨_, (ih' _).mpr ⟨rfl, hmem⟩, rfl⟩

theorem strchr_eq_none_iff : strchr c s = none ↔ c ∉ s := by
  rw [strchr, List.findIdx?_eq_none_iff]
  constructor
  · intro h hc
    simpa using h c hc
  · rintro h d hd
    have hne : d ≠ c := by
      rintro rfl
      exact h hd
    simpa using hne

theorem length_takeWhile_lt (hc : c ∈ s) (r : Bytes) :
    ((s ++ r).takeWhile (· != c)).length < s.length := by
  have hne : (s.takeWhile (· != c)).length ≠ s.length := by
    intro h
    have heq : s.takeWhile (· != c) = s := (List.takeWhile_prefix _).eq_of_length h
    have hmem : c ∈ s.takeWhile (· != c) := heq.symm ▸ hc
    simpa using List.mem_takeWhile_imp hmem
  rw [List.takeWhile_append, if_neg hne]
  exact lt_of_le_of_ne (List.takeWhile_prefix _).length_le hne

/-- A mask in three parts, cut where its first `'!'` and its first `'@'` are. -/
theorem cutMask_append (hbang : bangSign ∉ nick) (hnick : atSign ∉ nick) (huser : atSign ∉ user) :
    cutMask (nick ++ bangSign :: (user ++ atSign :: host)) =
      if MaskOk nick user host then some (nick, user, host) else none := by
  have hbangPos : strchr bangSign (nick ++ bangSign :: (user ++ atSign :: host)) =
      some nick.length := by
    rw [strchr_eq_some_iff, takeWhile_ne_append hbang]
    simp
  have hatPos : strchr atSign (nick ++ bangSign :: (user ++ atSign :: host)) =
      some (nick.length + 1 + user.length) := by
    have hsplit : nick ++ bangSign :: (user ++ atSign :: host) =
        (nick ++ bangSign :: user) ++ atSign :: host := by simp
    have hmem : atSign ∉ nick ++ bangSign :: user := by
      simp only [List.mem_append, List.mem_cons, not_or]
      exact ⟨hnick, by decide, huser⟩
    rw [hsplit, strchr_eq_some_iff, takeWhile_ne_append hmem]
    simp only [List.length_append, List.length_cons, List.mem_append, List.mem_cons, true_or,
      or_true, and_true]
    omega
  have hdrop : (nick ++ bangSign :: (user ++ atSign :: host)).drop (nick.length + 1) =
      user ++ atSign :: host := by
    rw [List.drop_append]
    simp
  have hdrop' : (nick ++ bangSign :: (user ++ atSign :: host)).drop
      (nick.length + 1 + user.length + 1) = host := by
    rw [show nick.length + 1 + user.length + 1 = (nick.length + 1) + (user.length + 1) by omega,
      ← List.drop_drop, hdrop, List.drop_append]
    simp
  have hlen : (nick ++ bangSign :: (user ++ atSign :: host)).length =
      nick.length + 1 + user.length + 1 + host.length := by
    simp only [List.length_append, List.length_cons]
    omega
  have huserLen : nick.length + 1 + user.length - (nick.length + 1) = user.length := by omega
  simp only [cutMask, hbangPos, hatPos, hdrop, hdrop', hlen, huserLen, List.take_left',
    List.take_length]
  have hempty : ∀ l : Bytes, l = [] ↔ l.length = 0 := fun l => List.length_eq_zero_iff.symm
  simp only [MaskOk, hempty, ne_eq]
  by_cases hshape : nick.length = 0 ∨
      nick.length + 1 + user.length + 1 + host.length = nick.length + 1 + user.length + 1 ∨
      nick.length + 1 = nick.length + 1 + user.length ∨ nick.length + 1 + user.length < nick.length
  · rw [if_pos hshape, if_neg]
    rintro ⟨hne, -⟩
    omega
  · rw [if_neg hshape]
    by_cases hlong : NICKLEN < nick.length ∨ USERLEN < user.length ∨ HOSTLEN < host.length
    · rw [if_pos hlong, if_neg]
      rintro ⟨-, -, hle⟩
      omega
    · rw [if_neg hlong, if_pos]
      exact ⟨by omega, ⟨hbang, hnick, huser⟩, by omega⟩

/-- The positions say what the parts are. -/
theorem cutMask_eq (arg : Bytes) :
    cutMask arg = (banMask arg).map fun b => (b.nick, b.user, b.host) := by
  have hmask : ∀ b, banMask arg = some b → cutMask arg = some (b.nick, b.user, b.host) := by
    intro b hb
    obtain ⟨-, ⟨hbang, hnick, huser⟩, -⟩ := id b.ok
    rw [← text_of_banMask hb, Ban.text, cutMask_append hbang hnick huser, if_pos b.ok]
  cases hb : banMask arg with
  | some b => exact hmask b hb
  | none =>
    rw [Option.map_none]
    by_cases hbang : bangSign ∈ arg
    · by_cases hat : atSign ∈ arg
      · have harg := append_takeWhile_ne hbang
        set nick := arg.takeWhile (· != bangSign) with hnickDef
        set rest := arg.drop (nick.length + 1) with hrestDef
        have hnick : bangSign ∉ nick := fun hmem => by simpa using List.mem_takeWhile_imp hmem
        by_cases hatNick : atSign ∈ nick
        · -- the `'@'` comes before the `'!'`
          have hlt := length_takeWhile_lt hatNick (bangSign :: rest)
          rw [harg] at hlt
          rw [cutMask, (strchr_eq_some_iff (c := bangSign)).mpr ⟨rfl, hbang⟩,
            (strchr_eq_some_iff (c := atSign)).mpr ⟨rfl, hat⟩]
          exact if_pos (.inr (.inr (.inr hlt)))
        · have hatRest : atSign ∈ rest := by
            rw [← harg] at hat
            rcases List.mem_append.mp hat with hmem | hmem
            · exact absurd hmem hatNick
            · exact (List.mem_cons.mp hmem).resolve_left (by decide)
          have hrest := append_takeWhile_ne hatRest
          set user := rest.takeWhile (· != atSign) with huserDef
          have huser : atSign ∉ user := fun hmem => by simpa using List.mem_takeWhile_imp hmem
          rw [← harg, ← hrest, cutMask_append hnick hatNick huser, if_neg]
          intro hok
          have hbad : banMask (Ban.text ⟨nick, user, _, hok⟩) = none := by
            rw [Ban.text, hrest, harg]
            exact hb
          rw [banMask_text] at hbad
          cases hbad
      · rw [cutMask, strchr_eq_none_iff.mpr hat]
        cases strchr bangSign arg <;> rfl
    · rw [cutMask, strchr_eq_none_iff.mpr hbang]

/-- What is copied is no longer than its array. -/
theorem take_of_cutMask (h : cutMask arg = some (nick, user, host)) :
    nick.take NICKLEN = nick ∧ user.take USERLEN = user ∧ host.take HOSTLEN = host := by
  rw [cutMask_eq, Option.map_eq_some_iff] at h
  obtain ⟨b, -, hb⟩ := h
  obtain ⟨rfl, rfl, rfl⟩ : b.nick = nick ∧ b.user = user ∧ b.host = host := by simpa using hb
  obtain ⟨-, -, hnick, huser, hhost⟩ := id b.ok
  exact ⟨List.take_of_length_le hnick, List.take_of_length_le huser, List.take_of_length_le hhost⟩

/-- The parts rejoin to the mask. -/
theorem rejoin_of_cutMask (h : cutMask arg = some (nick, user, host)) :
    nick ++ bangSign :: (user ++ atSign :: host) = arg := by
  rw [cutMask_eq, Option.map_eq_some_iff] at h
  obtain ⟨b, hb, hparts⟩ := h
  obtain ⟨rfl, rfl, rfl⟩ : b.nick = nick ∧ b.user = user ∧ b.host = host := by simpa using hparts
  exact text_of_banMask hb

/-- A byte that is no letter is where it is in both texts. -/
theorem strchr_congr (h : sameCase s t = true) (hc : ∀ d, toLower d = c ↔ d = c) :
    strchr c s = strchr c t := by
  have hlower : ∀ u : Bytes, strchr c u = (u.map toLower).findIdx? (· == c) := by
    intro u
    rw [List.findIdx?_map, strchr]
    congr 1
    funext d
    simp [hc]
  rw [hlower, hlower, sameCase_iff.mp h]

theorem sameCase_append {s' t' : Bytes} (h : sameCase s t = true) (h' : sameCase s' t' = true) :
    sameCase (s ++ s') (t ++ t') = true := by
  rw [sameCase_iff, List.map_append, List.map_append, sameCase_iff.mp h, sameCase_iff.mp h']

theorem sameCase_take (h : sameCase s t = true) (n : ℕ) :
    sameCase (s.take n) (t.take n) = true := by
  rw [sameCase_iff, List.map_take, List.map_take, sameCase_iff.mp h]

theorem sameCase_drop (h : sameCase s t = true) (n : ℕ) :
    sameCase (s.drop n) (t.drop n) = true := by
  rw [sameCase_iff, List.map_drop, List.map_drop, sameCase_iff.mp h]

end

namespace BanEntry

variable {e : BanEntry} {arg nick user host : Bytes}

/-- The parts of an entry are those of its text. -/
def Cut (e : BanEntry) : Prop := cutMask e.text = some (e.nick, e.user, e.host)

theorem toLower_eq_bangSign : ∀ d, toLower d = bangSign ↔ d = bangSign :=
  forall_byte (by decide +kernel)

theorem toLower_eq_atSign : ∀ d, toLower d = atSign ↔ d = atSign :=
  forall_byte (by decide +kernel)

/-- The positions of a mask that is taken, and its parts by them. -/
theorem parts_of_cutMask (h : cutMask arg = some (nick, user, host)) :
    ∃ bang atPos, strchr bangSign arg = some bang ∧ strchr atSign arg = some atPos ∧
      nick = arg.take bang ∧ user = (arg.drop (bang + 1)).take (atPos - (bang + 1)) ∧
      host = arg.drop (atPos + 1) := by
  unfold cutMask at h
  split at h
  · rename_i bang atPos hbang hat
    split at h
    · cases h
    · dsimp only at h
      split at h
      · cases h
      · simp only [List.take_length, Option.some.injEq, Prod.mk.injEq] at h
        obtain ⟨rfl, rfl, rfl⟩ := h
        exact ⟨bang, atPos, hbang, hat, rfl, rfl, rfl⟩
  · cases h

/-- Masks are the same but for case just if their parts are. -/
theorem equals_iff (he : e.Cut) (h : cutMask arg = some (nick, user, host)) :
    e.equals nick user host = true ↔ sameCase e.text arg = true := by
  constructor
  · intro heq
    simp only [equals, Bool.and_eq_true] at heq
    obtain ⟨⟨hnick, huser⟩, hhost⟩ := heq
    rw [← rejoin_of_cutMask h]
    refine sameCase_append hnick
      (sameCase_append (s := [bangSign]) (t := [bangSign]) (by decide) ?_)
    exact sameCase_append huser (sameCase_append (s := [atSign]) (t := [atSign]) (by decide) hhost)
  · intro hsame
    obtain ⟨bang, atPos, hbang, hat, hnick, huser, hhost⟩ := parts_of_cutMask he
    obtain ⟨bang', atPos', hbang', hat', rfl, rfl, rfl⟩ := parts_of_cutMask h
    rw [strchr_congr hsame toLower_eq_bangSign, hbang'] at hbang
    rw [strchr_congr hsame toLower_eq_atSign, hat'] at hat
    obtain rfl := Option.some.inj hbang
    obtain rfl := Option.some.inj hat
    rw [equals, hnick, huser, hhost, sameCase_take hsame,
      sameCase_take (sameCase_drop hsame _), sameCase_drop hsame]
    rfl

end BanEntry

/-! ### What a change does -/

/-- A change that a client of our own asks for. -/
structure BanRequest where
  may : Bool
  who : Bytes
  set : Bool
  arg : Option Bytes
  now : ℤ

namespace BanRequest

variable (me : Bytes) (a : BanRequest) (banlist : List BanEntry)

/-- What comes of it. -/
def exec : ModeRes × List BanEntry :=
  chanmodeBanList me a.now (some ⟨true, a.may, a.who⟩) (if a.set then .set else .unset) a.arg
    banlist

/-- The list after it. -/
def step (banlist : List BanEntry) (a : BanRequest) : Option (List BanEntry) :=
  some (a.exec me banlist).2

/-- No two entries are the same but for case, and there are not too many. -/
structure Bounded (banlist : List BanEntry) : Prop where
  distinct : banlist.Pairwise fun b c => sameCase b.text c.text = false
  length : banlist.length ≤ MAX_BANS_PER_CHANNEL

/-- The list stays bounded; what is accepted adds one entry that rejoins to the mask, or takes the
entries away that are the mask; what is refused changes nothing. -/
structure Lawful (banlist : List BanEntry) (a : BanRequest) : Prop where
  bounded : Bounded (a.exec me banlist).2
  adds : (a.exec me banlist).1 = .ok → a.set = true → ∃ e, (a.exec me banlist).2 = e :: banlist ∧
    a.arg = some e.text
  removes : (a.exec me banlist).1 = .ok → a.set = false → ∃ mask, a.arg = some mask ∧
    (a.exec me banlist).2 = banlist.filter fun e => !sameCase e.text mask
  refused : (a.exec me banlist).1 ≠ .ok → (a.exec me banlist).2 = banlist

/-- The request would add a ban: who asks may do so, and the mask is a good one and not there. -/
def Fresh (banlist : List BanEntry) (a : BanRequest) : Prop :=
  a.set = true ∧ a.may = true ∧ ∃ mask, a.arg = some mask ∧ (cutMask mask).isSome ∧
    ∀ e ∈ banlist, sameCase e.text mask = false

/-- A list that is full is asked for no new ban. -/
def HasRoom (banlist : List BanEntry) (a : BanRequest) : Prop :=
  banlist.length = MAX_BANS_PER_CHANNEL → ¬ a.Fresh banlist

end BanRequest

/-- The walk finds that there are too many, or one that is the same. -/
theorem banRefused_iff {mine : Bool} {nick user host : Bytes} {cnt : ℕ} {banlist : List BanEntry}
    (hcnt : cnt ≤ MAX_BANS_PER_CHANNEL) :
    banRefused mine nick user host cnt banlist = true ↔
      (mine = true ∧ MAX_BANS_PER_CHANNEL < cnt + banlist.length) ∨
        ∃ e ∈ banlist, e.equals nick user host = true := by
  induction banlist generalizing cnt with
  | nil => simp [banRefused, hcnt]
  | cons e banlist ih =>
    rw [banRefused, List.exists_mem_cons_iff, List.length_cons, Bool.or_eq_true, Bool.or_eq_true,
      Bool.and_eq_true, decide_eq_true_iff]
    rcases hcnt.lt_or_eq with hlt | heq
    · rw [ih hlt]
      have hno : ¬ MAX_BANS_PER_CHANNEL < cnt + 1 := by omega
      have hlen : cnt + 1 + banlist.length = cnt + (banlist.length + 1) := by omega
      rw [hlen]
      tauto
    · -- the list was full before this entry
      cases mine with
      | true => exact iff_of_true (.inl (.inl ⟨by omega, rfl⟩)) (.inl ⟨rfl, by omega⟩)
      | false =>
        have hrest : banRefused false nick user host (cnt + 1) banlist = true ↔
            ∃ e ∈ banlist, e.equals nick user host = true := by
          generalize cnt + 1 = n
          clear ih
          induction banlist generalizing n with
          | nil => simp [banRefused]
          | cons b banlist ih => simp [banRefused, ih]
        rw [hrest]
        simp

/-! ### The bans of a channel -/

/-- The parts of an entry. -/
def BanEntry.parts (e : BanEntry) : Bytes × Bytes × Bytes := (e.nick, e.user, e.host)

/-- The parts of a ban. -/
def Ban.parts (b : Ban) : Bytes × Bytes × Bytes := (b.nick, b.user, b.host)

/-- Who changes a ban, as the table of modes sees it. -/
def Actor.setter (t : ModeTable) (chan : Chan) (who : Bytes) (a : Actor) : BanSetter :=
  ⟨true, !denied t (some a) chan, who⟩

/-- The list of a channel's bans, by their parts, is what the walk over the entries makes of it. -/
theorem parts_chanmodeBanList (me who : Bytes) (now : ℤ) (t : ModeTable) (cli : Option Actor)
    (chan : Chan) (mode : UInt8) (set : Bool) (arg : Option Bytes) {banlist : List BanEntry}
    (h : banlist.map BanEntry.parts = (chan.bans mode).list.map Ban.parts) :
    let r := chanmodeBanList me now (cli.map (Actor.setter t chan who))
      (if set then .set else .unset) arg banlist
    let m := chanmodeBan t cli chan mode set arg
    r.1 = m.res ∧ r.2.map BanEntry.parts = (m.chan.bans mode).list.map Ban.parts := by
  have hdenied :
      (cli.map (Actor.setter t chan who)).any (fun cli => !cli.may) = denied t cli chan := by
    cases cli <;> simp [Actor.setter, denied]
  have hmine : (cli.map (Actor.setter t chan who)).any (·.mine) = cli.isSome := by
    cases cli <;> simp [Actor.setter]
  have hlen : banlist.length = (chan.bans mode).list.length := by
    simpa using congrArg List.length h
  have hequals : ∀ b : Ban, (∃ e ∈ banlist, e.equals b.nick b.user b.host = true) ↔
      ∃ c ∈ (chan.bans mode).list, c.same b = true := by
    intro b
    have hany : (banlist.map BanEntry.parts).any (fun p =>
          sameCase p.1 b.nick && sameCase p.2.1 b.user && sameCase p.2.2 b.host) =
        ((chan.bans mode).list.map Ban.parts).any (fun p =>
          sameCase p.1 b.nick && sameCase p.2.1 b.user && sameCase p.2.2 b.host) := by rw [h]
    rw [List.any_map, List.any_map, Bool.eq_iff_iff, List.any_eq_true, List.any_eq_true] at hany
    exact hany
  dsimp only
  unfold chanmodeBanList chanmodeBan
  rw [if_neg (by cases set <;> simp)]
  cases arg with
  | none => exact ⟨rfl, h⟩
  | some arg =>
    dsimp only
    rw [hdenied, hmine, cutMask_eq]
    by_cases hd : denied t cli chan = true
    · rw [if_pos hd, if_pos hd]
      exact ⟨rfl, h⟩
    · rw [if_neg hd, if_neg hd]
      cases hb : banMask arg with
      | none => exact ⟨rfl, h⟩
      | some b =>
        obtain ⟨-, -, hnick, huser, hhost⟩ := id b.ok
        rw [Option.map_some]
        dsimp only
        cases set with
        | true =>
          have hrefused := @banRefused_iff cli.isSome b.nick b.user b.host 0 banlist
            (Nat.zero_le MAX_BANS_PER_CHANNEL)
          rw [hequals, Nat.zero_add, hlen] at hrefused
          rw [if_pos rfl, if_pos rfl, if_pos rfl]
          by_cases hr : banRefused cli.isSome b.nick b.user b.host 0 banlist = true
          · rw [if_pos hr]
            rcases hrefused.mp hr with hfull | ⟨c, hc, hsame⟩
            · rw [if_pos hfull]
              exact ⟨rfl, h⟩
            · have hnot : ¬ ∀ cbp ∈ (chan.bans mode).list, cbp.same b = false := fun hall => by
                rw [hall c hc] at hsame
                cases hsame
              rw [dif_neg hnot]
              split <;> exact ⟨rfl, h⟩
          · rw [if_neg hr]
            rw [hrefused, not_or] at hr
            obtain ⟨hroom, hnew⟩ := hr
            have hall : ∀ cbp ∈ (chan.bans mode).list, cbp.same b = false := by
              intro c hc
              rw [← Bool.not_eq_true]
              exact fun hsame => hnew ⟨c, hc, hsame⟩
            rw [if_neg hroom, dif_pos hall]
            refine ⟨rfl, ?_⟩
            simp only [Chan.setBans, Function.update_self, BanList.insert, List.map_cons, h,
              BanEntry.parts, Ban.parts, List.take_of_length_le hnick, List.take_of_length_le huser,
              List.take_of_length_le hhost]
        | false =>
          rw [if_neg Bool.false_ne_true, if_neg (by decide), if_neg Bool.false_ne_true]
          refine ⟨rfl, ?_⟩
          simp only [Chan.setBans, Function.update_self, BanList.remove]
          -- the first entry that is the same is at the same place
          let q : Bytes × Bytes × Bytes → Bool := fun p =>
            sameCase p.1 b.nick && sameCase p.2.1 b.user && sameCase p.2.2 b.host
          have hraw : (banlist.map BanEntry.parts).eraseP q =
              (banlist.eraseP (q ∘ BanEntry.parts)).map BanEntry.parts := List.eraseP_map
          have hbans : ((chan.bans mode).list.map Ban.parts).eraseP q =
              ((chan.bans mode).list.eraseP (q ∘ Ban.parts)).map Ban.parts := List.eraseP_map
          rw [h] at hraw
          exact hraw.symm.trans hbans

namespace BanRequest

variable {me : Bytes} {a : BanRequest} {banlist : List BanEntry}

/-- What is on a list from the empty one on. -/
structure Sound (banlist : List BanEntry) : Prop extends Bounded banlist where
  cut : ∀ e ∈ banlist, e.Cut

/-- A request that is refused before the list is looked at. -/
theorem exec_of_none (h : a.may = false ∨ a.arg.bind cutMask = none) :
    (a.exec me banlist).1 ≠ .ok ∧ (a.exec me banlist).2 = banlist := by
  unfold exec chanmodeBanList
  rw [if_neg (by cases a.set <;> simp)]
  cases harg : a.arg with
  | none => exact ⟨by simp, rfl⟩
  | some arg =>
    by_cases hmay : a.may = true
    · have hmask : cutMask arg = none := by simpa [hmay, harg] using h
      simp [hmay, hmask]
    · simp [hmay]

/-- A request for a ban. -/
theorem exec_set {arg nick user host : Bytes} (hset : a.set = true) (hmay : a.may = true)
    (harg : a.arg = some arg) (hmask : cutMask arg = some (nick, user, host)) :
    a.exec me banlist = if banRefused true nick user host 0 banlist then (.fail, banlist)
      else (.ok, ⟨nick, user, host, a.who, a.now⟩ :: banlist) := by
  obtain ⟨hnick, huser, hhost⟩ := take_of_cutMask hmask
  simp [exec, chanmodeBanList, hset, hmay, harg, hmask, hnick, huser, hhost]

/-- A request to take a ban away. -/
theorem exec_unset {arg nick user host : Bytes} (hset : a.set = false) (hmay : a.may = true)
    (harg : a.arg = some arg) (hmask : cutMask arg = some (nick, user, host)) :
    a.exec me banlist = (.ok, banlist.eraseP fun cbp => cbp.equals nick user host) := by
  simp [exec, chanmodeBanList, hset, hmay, harg, hmask]

/-- Of entries that are not the same only one is a mask. -/
theorem eraseP_eq_filter {mask : Bytes} {p : BanEntry → Bool}
    (hp : ∀ e ∈ banlist, p e = sameCase e.text mask)
    (hdistinct : banlist.Pairwise fun b c => sameCase b.text c.text = false) :
    banlist.eraseP p = banlist.filter fun e => !sameCase e.text mask := by
  induction banlist with
  | nil => rfl
  | cons e banlist ih =>
    obtain ⟨he, hdistinct⟩ := List.pairwise_cons.mp hdistinct
    obtain ⟨hpe, hp⟩ := List.forall_mem_cons.mp hp
    cases hsame : sameCase e.text mask with
    | true =>
      have hall : ∀ b ∈ banlist, (!sameCase b.text mask) = true := by
        intro b hb
        rw [Bool.not_eq_true', ← Bool.not_eq_true]
        intro hmask
        have heb : sameCase e.text b.text = true := by
          rw [sameCase_iff, sameCase_iff.mp hsame, sameCase_iff.mp hmask]
        rw [he b hb] at heb
        cases heb
      rw [List.eraseP_cons_of_pos (by rw [hpe, hsame]), List.filter_cons_of_neg (by simp [hsame]),
        List.filter_eq_self.mpr hall]
    | false =>
      rw [List.eraseP_cons_of_neg (by simp [hpe, hsame]), List.filter_cons_of_pos (by simp [hsame]),
        ih hp hdistinct]

/-- What is left of a list is as good as the list. -/
theorem Sound.sublist {l : List BanEntry} (h : Sound banlist) (hl : l.Sublist banlist) :
    Sound l where
  distinct := h.distinct.sublist hl
  length := hl.length_le.trans h.length
  cut e he := h.cut e (hl.subset he)

/-- All requests, by what comes of them. -/
theorem exec_cases (me : Bytes) (a : BanRequest) (h : Sound banlist) :
    ((a.exec me banlist).1 ≠ .ok ∧ (a.exec me banlist).2 = banlist ∧
        (a.Fresh banlist → MAX_BANS_PER_CHANNEL < banlist.length)) ∨
      (a.set = true ∧ (a.exec me banlist).1 = .ok ∧ a.Fresh banlist ∧
        ∃ e, (a.exec me banlist).2 = e :: banlist ∧ a.arg = some e.text ∧ e.Cut) ∨
      a.set = false ∧ (a.exec me banlist).1 = .ok ∧ ∃ mask, a.arg = some mask ∧
        (a.exec me banlist).2 = banlist.filter fun e => !sameCase e.text mask := by
  by_cases hnone : a.may = false ∨ a.arg.bind cutMask = none
  · obtain ⟨hres, hlist⟩ : (a.exec me banlist).1 ≠ .ok ∧ (a.exec me banlist).2 = banlist :=
      exec_of_none hnone
    refine .inl ⟨hres, hlist, ?_⟩
    rintro ⟨-, hmay, mask, harg, hmask, -⟩
    rcases hnone with hnone | hnone
    · rw [hmay] at hnone
      cases hnone
    · rw [harg, Option.bind_some] at hnone
      rw [hnone] at hmask
      cases hmask
  · rw [not_or, Bool.not_eq_false] at hnone
    obtain ⟨hmay, hparts⟩ := hnone
    obtain ⟨⟨nick, user, host⟩, hparts⟩ := Option.ne_none_iff_exists'.mp hparts
    obtain ⟨mask, harg, hmask⟩ := Option.bind_eq_some_iff.mp hparts
    have hequals : ∀ e ∈ banlist, e.equals nick user host = sameCase e.text mask := by
      intro e he
      rw [Bool.eq_iff_iff]
      exact BanEntry.equals_iff (h.cut e he) hmask
    cases hset : a.set with
    | true =>
      rw [exec_set hset hmay harg hmask]
      by_cases hrefused : banRefused true nick user host 0 banlist = true
      · rw [if_pos hrefused]
        refine .inl ⟨by simp, rfl, ?_⟩
        rintro ⟨-, -, mask', harg', -, hnew⟩
        obtain rfl := Option.some.inj (harg.symm.trans harg')
        rcases (banRefused_iff (Nat.zero_le _)).mp hrefused with ⟨-, hlong⟩ | ⟨e, he, heq⟩
        · omega
        · rw [hequals e he, hnew e he] at heq
          cases heq
      · rw [if_neg hrefused]
        rw [banRefused_iff (Nat.zero_le _), not_or] at hrefused
        have hjoin := rejoin_of_cutMask hmask
        refine .inr (.inl ⟨rfl, rfl, ⟨hset, hmay, mask, harg, by simp [hmask], fun e he => ?_⟩,
          _, rfl, ?_, ?_⟩)
        · rw [← hequals e he, ← Bool.not_eq_true]
          exact fun heq => hrefused.2 ⟨e, he, heq⟩
        · rw [harg, BanEntry.text, hjoin]
        · rw [BanEntry.Cut, BanEntry.text, hjoin, hmask]
    | false =>
      rw [exec_unset hset hmay harg hmask]
      exact .inr (.inr ⟨rfl, rfl, mask, harg, eraseP_eq_filter hequals h.distinct⟩)

theorem Sound.exec (h : Sound banlist) (hroom : HasRoom banlist a) :
    Sound (a.exec me banlist).2 := by
  rcases exec_cases me a h with ⟨-, hlist, -⟩ | ⟨-, -, hfresh, e, hlist, harg, hcut⟩ |
    ⟨-, -, mask, -, hlist⟩
  · rw [hlist]
    exact h
  · rw [hlist]
    obtain ⟨-, -, mask, hmask, -, hnew⟩ := id hfresh
    obtain rfl := Option.some.inj (harg.symm.trans hmask)
    refine ⟨⟨List.pairwise_cons.mpr ⟨fun b hb => ?_, h.distinct⟩, ?_⟩,
      List.forall_mem_cons.mpr ⟨hcut, h.cut⟩⟩
    · rw [← Bool.not_eq_true, sameCase_iff, eq_comm, ← sameCase_iff, hnew b hb]
      exact Bool.false_ne_true
    · have hlen := h.length
      have hne : banlist.length ≠ MAX_BANS_PER_CHANNEL := fun heq => hroom heq hfresh
      rw [List.length_cons]
      omega
  · rw [hlist]
    exact h.sublist List.filter_sublist

theorem lawful_iff (h : Sound banlist) : Lawful me banlist a ↔ HasRoom banlist a := by
  rcases exec_cases me a h with ⟨hres, hlist, hfresh⟩ |
    ⟨hset, hres, hfresh, e, hlist, harg, hcut⟩ | ⟨hset, hres, mask, harg, hlist⟩
  · have hroom : HasRoom banlist a := fun heq hnew => absurd (hfresh hnew) (by omega)
    refine iff_of_true ⟨?_, fun hok => absurd hok hres, fun hok => absurd hok hres, fun _ => hlist⟩
      hroom
    exact (h.exec hroom).toBounded
  · constructor
    · rintro ⟨⟨-, hlen⟩, -⟩ heq
      rw [hlist, List.length_cons] at hlen
      omega
    · intro hroom
      refine ⟨(h.exec hroom).toBounded, fun _ _ => ⟨e, hlist, harg⟩, fun _ hunset => ?_,
        fun hne => absurd hres hne⟩
      rw [hset] at hunset
      cases hunset
  · have hroom : HasRoom banlist a := by
      rintro - ⟨hset', -⟩
      rw [hset] at hset'
      cases hset'
    refine iff_of_true ⟨(h.exec hroom).toBounded, fun _ hset' => ?_, fun _ _ => ⟨mask, harg, hlist⟩,
      fun hne => absurd hres hne⟩ hroom
    rw [hset] at hset'
    cases hset'

theorem sound_nil : Sound [] := ⟨⟨.nil, Nat.zero_le _⟩, by simp⟩

/-- Ban lists: over every sequence of changes by clients of our own, from the empty list on, all of
them are lawful just if none asks a full list for a new ban. -/
theorem lawful_along_iff (me : Bytes) (requests : List BanRequest) :
    Run.Along (step me) (Lawful me) [] requests ↔ Run.Along (step me) HasRoom [] requests := by
  refine (Run.along_iff (I := Sound) (fun banlist a banlist' h hroom hstep => ?_)
    (fun _ _ h => (lawful_iff h).symm) sound_nil).symm
  obtain rfl := Option.some.inj hstep
  exact h.exec hroom

/-- A hundred and one masks. -/
def manyBans : List BanRequest :=
  (List.range (MAX_BANS_PER_CHANNEL + 1)).map fun n =>
    ⟨true, [], true,
      some [UInt8.ofNat (97 + n / 26), UInt8.ofNat (97 + n % 26), bangSign, 117, atSign, 104], 0⟩

/-- All of them are taken. -/
theorem length_manyBans :
    (Run.run (step []) [] manyBans).map List.length = some (MAX_BANS_PER_CHANNEL + 1) := by
  decide +kernel

theorem lawful_fails : ¬ ∀ me requests, Run.Along (step me) (Lawful me) [] requests := by
  intro hall
  obtain ⟨t, hrun, hlen⟩ := Option.map_eq_some_iff.mp length_manyBans
  have hbound : t.length ≤ MAX_BANS_PER_CHANNEL := by
    refine Run.run_invariant (I := fun l => l.length ≤ MAX_BANS_PER_CHANNEL)
      (fun l a l' _ hlaw hstep => ?_)
      (Nat.zero_le _) (hall [] manyBans) hrun
    obtain rfl := Option.some.inj hstep
    exact hlaw.bounded.length
  omega

end BanRequest

end Ithildin
