import Ithildin.Event.Cond
import Ithildin.Lib.Run
import Mathlib.Data.List.Nodup
import Mathlib.Logic.Function.Basic
import Mathlib.Tactic.Common

/-!
# The INVITE command

A channel keeps a short list of the clients that have been invited to it. An entry has the address
of the client and the time of the invitation. It is not taken off when the client signs off; all
that protects it is that a client must not have signed on after the time of the entry.

* `addInvite`: what INVITE does to the list;
* `canJoinModeI`: the hook that looks at it when a client joins;
* `InviteNet.step`: clients come and go, invite and join, and channels come and go;
* `Guarded`: what the list is to be, and for whom the hook opens the channel;
* `guarded_iff`: so it is in a run just if no client gets the address of an entry that is as new as
  its sign-on.

Clients and channels have numbers here that are never used again, beside their addresses: `which` is
no part of the source.
-/

namespace Ithildin

/-- `struct channel_invite`. -/
structure ChannelInvite where
  cli : ℕ
  invitedAt : ℤ
  deriving DecidableEq

/-- A client that is registered, as far as channels ask for it. -/
structure InviteClient where
  mine : Bool
  signon : ℤ
  which : ℕ
  deriving DecidableEq

/-- `struct chanlink`: a client on a channel, and what is known of the bans that match it. -/
structure InviteUser where
  cli : ℕ
  bans : ℕ
  deriving DecidableEq

/-- A channel: the mode `i` with its list, and the clients on it. -/
structure InviteChannel where
  inviteOnly : Bool
  invites : List ChannelInvite
  users : List InviteUser
  which : ℕ
  deriving DecidableEq

/-- `MAX_INVITES_PER_CHANNEL`. -/
def maxInvitesPerChannel : ℕ := 5

/-- `ERR_INVITEONLYCHAN`. -/
def errInviteOnlyChan : ℕ+ := 473

/-! ### The list -/

/-- The first entry for the client is given the time, if there is one. -/
def updateInvite (cp : ℕ) (now : ℤ) : List ChannelInvite → Option (List ChannelInvite)
  | [] => none
  | ip :: ilist =>
      if ip.cli = cp then some (⟨cp, now⟩ :: ilist)
      else (updateInvite cp now ilist).map (ip :: ·)

/-- The end of `CLIENT_COMMAND(invite)`: the last entry goes if there are too many. -/
def addInvite (cp : ℕ) (now : ℤ) (ilist : List ChannelInvite) : List ChannelInvite :=
  match updateInvite cp now ilist with
  | some ilist => ilist
  | none =>
      ⟨cp, now⟩ :: (if maxInvitesPerChannel ≤ ilist.length then ilist.dropLast else ilist)

/-- What the hook comes to: its value, and the list and the bans of the client's link. -/
structure InviteCheck where
  ret : HookCond
  invites : List ChannelInvite
  bans : ℕ

/-- What the mode alone says. -/
def InviteChannel.closed (r : InviteChannel) : HookCond :=
  if r.inviteOnly then .error errInviteOnlyChan else .ok

/-- `can_join_mode_i`, for a client at an address that signed on at a time. -/
def canJoinModeI (r : InviteChannel) (cli : ℕ) (signon : ℤ) (bans : ℕ) : InviteCheck :=
  match r.invites.find? fun ip => ip.cli = cli with
  | none => ⟨r.closed, r.invites, bans⟩
  | some ip =>
      let rest := r.invites.eraseP fun ip => ip.cli = cli
      if signon ≤ ip.invitedAt then ⟨.alwaysOk, rest, 0⟩ else ⟨r.closed, rest, bans⟩

/-! ### What happens -/

/-- Clients and channels by address; `me.now`; the next number; and who has been invited where, by
number. -/
structure InviteNet where
  client : ℕ → Option InviteClient
  chan : ℕ → Option InviteChannel
  now : ℤ
  next : ℕ
  invited : List (ℕ × ℕ)

/-- What happens: a client registers at an address, one of ours or one whose server says when it
signed on; it signs off; it invites one that `find_client` finds to a channel that `find_channel`
finds, being a master or an operator of the channel or not; it joins a channel, which is made if it
is not there, while earlier hooks leave `bans` behind and say `before`, and later ones say `after`;
it leaves a channel; the mode `i` is set or taken off, or cleared; and time goes on. -/
inductive InviteAction
  | signOn (c : ℕ) (mine : Bool) (signon : ℤ)
  | signOff (c : ℕ)
  | invite (c : ℕ) (cp ch : Option ℕ) (master op : Bool)
  | join (c ch bans : ℕ) (before after : List ℤ)
  | leave (c ch : ℕ)
  | setMode (ch : ℕ) (on : Bool)
  | clear (ch : ℕ)
  | tick (now : ℤ)

namespace InviteChannel

variable (r : InviteChannel) (c : ℕ)

/-- `onchannel`. -/
def onChannel : Bool := r.users.any fun clp => clp.cli = c

/-- `del_from_channel`: an empty channel is destroyed, and its list with it. -/
def delUser : Option InviteChannel :=
  let users := r.users.eraseP fun clp => clp.cli = c
  if users = [] then none else some { r with users := users }

end InviteChannel

namespace InviteNet

variable (net : InviteNet)

/-- What is at the address of a channel. -/
def setChan (ch : ℕ) (o : Option InviteChannel) : InviteNet :=
  { net with chan := Function.update net.chan ch o }

/-- A client registers. -/
def signOn (c : ℕ) (mine : Bool) (signon : ℤ) : InviteNet :=
  { net with
    client := Function.update net.client c
      (some ⟨mine, if mine then net.now else signon, net.next⟩)
    next := net.next + 1 }

/-- A client leaves its channels, and is gone. -/
def signOff (c : ℕ) : InviteNet :=
  { net with
    client := Function.update net.client c none
    chan := fun ch => (net.chan ch).bind fun r => if r.onChannel c then r.delUser c else some r }

/-- `CLIENT_COMMAND(invite)`, with what `find_client` and `find_channel` find. -/
def invite (c : ℕ) (cp ch : Option ℕ) (master op : Bool) : InviteNet :=
  match cp, ch with
  | some cp, some ch =>
      match net.client cp, net.chan ch with
      | some cpr, some chp =>
          if !master && !chp.onChannel c then net
          else if chp.onChannel cp then net
          else if !master && !op then net
          else
            let told := { net with invited := (cpr.which, chp.which) :: net.invited }
            if cpr.mine then
              told.setChan ch (some { chp with invites := addInvite cp net.now chp.invites })
            else told
      | _, _ => net
  | _, _ => net

/-- The hooks before this one do not end the loop. -/
def Reached (before : List ℤ) : Prop :=
  ∀ ret ∈ before, ret ≠ HookCond.alwaysOk.code ∧ ret ≠ HookCond.neverOk.code

instance (before : List ℤ) : Decidable (Reached before) :=
  inferInstanceAs (Decidable (∀ ret ∈ before, _ ∧ _))

/-- The client is put on the channel, and taken off again if it is one of ours and is refused. -/
def enter (r : InviteChannel) (c : ℕ) (cli : InviteClient) (bans : ℕ) (before after : List ℤ) :
    Option InviteChannel :=
  if !cli.mine then some { r with users := ⟨c, 0⟩ :: r.users }
  else if Reached before then
    let check := canJoinModeI r c cli.signon bans
    let r' := { r with invites := check.invites, users := ⟨c, check.bans⟩ :: r.users }
    if 0 ≤ hookCondEvent false (before ++ check.ret.code :: after) then r'.delUser c else some r'
  else
    let r' := { r with users := ⟨c, bans⟩ :: r.users }
    if 0 ≤ hookCondEvent false before then r'.delUser c else some r'

/-- `CLIENT_COMMAND(join)`, for one name. -/
def join (c ch bans : ℕ) (before after : List ℤ) : InviteNet :=
  match net.client c with
  | none => net
  | some cli =>
      match net.chan ch with
      | some r =>
          if r.onChannel c then net else net.setChan ch (enter r c cli bans before after)
      | none =>
          { net.setChan ch (enter ⟨false, [], [], net.next⟩ c cli bans before after) with
            next := net.next + 1 }

/-- A step. The address of a new client is free. -/
def step (net : InviteNet) : InviteAction → Option InviteNet
  | .signOn c mine signon =>
      if net.client c = none then some (net.signOn c mine signon) else none
  | .signOff c => some (net.signOff c)
  | .invite c cp ch master op => some (net.invite c cp ch master op)
  | .join c ch bans before after => some (net.join c ch bans before after)
  | .leave c ch => some (net.setChan ch ((net.chan ch).bind fun r => r.delUser c))
  | .setMode ch on =>
      some (net.setChan ch ((net.chan ch).map fun r => { r with inviteOnly := on }))
  | .clear ch => some (net.setChan ch ((net.chan ch).map fun r => { r with invites := [] }))
  | .tick now => some { net with now := now }

def start : InviteNet := ⟨fun _ => none, fun _ => none, 0, 0, []⟩

/-- No list has more than five entries, nor two for one client. A check that a client of ours makes
takes its entry off, and leaves the others; and it opens the channel only to a client that has been
invited to it. -/
structure Guarded : Prop where
  short : ∀ ch r, net.chan ch = some r → r.invites.length ≤ maxInvitesPerChannel
  once : ∀ ch r, net.chan ch = some r → (r.invites.map ChannelInvite.cli).Nodup
  consumed : ∀ c cli ch r bans, net.client c = some cli → net.chan ch = some r →
    (canJoinModeI r c cli.signon bans).invites = r.invites.filter fun ip => ip.cli ≠ c
  bypass : ∀ c cli ch r bans, net.client c = some cli → cli.mine = true → net.chan ch = some r →
    (canJoinModeI r c cli.signon bans).ret = .alwaysOk → (cli.which, r.which) ∈ net.invited

/-- No entry with the address of a new client of ours is as new as its sign-on. -/
def Unclaimed (net : InviteNet) : InviteAction → Prop
  | .signOn c mine _ => mine = true →
      ∀ ch r, net.chan ch = some r → ∀ ip ∈ r.invites, ip.cli = c → ip.invitedAt < net.now
  | .signOff _ | .invite _ _ _ _ _ | .join _ _ _ _ _ | .leave _ _ | .setMode _ _ | .clear _
  | .tick _ => True

end InviteNet

/-! ### The list and the hook -/

section
variable {cp c : ℕ} {now signon : ℤ} {bans : ℕ} {l l' : List ChannelInvite} {r r' : InviteChannel}
  {ip : ChannelInvite}

theorem map_updateInvite (h : updateInvite cp now l = some l') :
    l'.map ChannelInvite.cli = l.map ChannelInvite.cli := by
  induction l generalizing l' with
  | nil => cases h
  | cons ip l ih =>
    unfold updateInvite at h
    split at h
    · rename_i hcli
      obtain rfl := Option.some.inj h
      simp [hcli]
    · obtain ⟨rest, hrest, rfl⟩ := Option.map_eq_some_iff.mp h
      simp [ih hrest]

theorem mem_updateInvite (h : updateInvite cp now l = some l') (hip : ip ∈ l') :
    ip.cli = cp ∨ ip ∈ l := by
  induction l generalizing l' with
  | nil => cases h
  | cons a l ih =>
    unfold updateInvite at h
    split at h
    · obtain rfl := Option.some.inj h
      rcases List.mem_cons.mp hip with rfl | hip
      · exact .inl rfl
      · exact .inr (List.mem_cons_of_mem a hip)
    · obtain ⟨rest, hrest, rfl⟩ := Option.map_eq_some_iff.mp h
      rcases List.mem_cons.mp hip with rfl | hip
      · exact .inr List.mem_cons_self
      · exact (ih hrest hip).imp_right (List.mem_cons_of_mem a)

theorem not_mem_of_updateInvite (h : updateInvite cp now l = none) :
    cp ∉ l.map ChannelInvite.cli := by
  induction l with
  | nil => simp
  | cons a l ih =>
    unfold updateInvite at h
    split at h
    · cases h
    · rename_i hcli
      simp only [List.map_cons, List.mem_cons, not_or]
      exact ⟨fun heq => hcli heq.symm, ih (Option.map_eq_none_iff.mp h)⟩

/-- What is kept of the list when an entry is put before it. -/
theorem sublist_kept (l : List ChannelInvite) :
    (if maxInvitesPerChannel ≤ l.length then l.dropLast else l).Sublist l := by
  split
  · exact List.dropLast_sublist l
  · exact List.Sublist.refl l

theorem length_addInvite_le (h : l.length ≤ maxInvitesPerChannel) :
    (addInvite cp now l).length ≤ maxInvitesPerChannel := by
  unfold addInvite
  split
  · rename_i hup
    have hlen := congrArg List.length (map_updateInvite hup)
    simp only [List.length_map] at hlen
    omega
  · unfold maxInvitesPerChannel at *
    split
    · simp only [List.length_cons, List.length_dropLast]
      omega
    · simp only [List.length_cons]
      omega

theorem nodup_addInvite (h : (l.map ChannelInvite.cli).Nodup) :
    ((addInvite cp now l).map ChannelInvite.cli).Nodup := by
  unfold addInvite
  split
  · rename_i hup
    rwa [map_updateInvite hup]
  · rename_i hup
    have hsub := (sublist_kept l).map ChannelInvite.cli
    rw [List.map_cons, List.nodup_cons]
    exact ⟨fun hmem => not_mem_of_updateInvite hup (hsub.subset hmem), h.sublist hsub⟩

theorem mem_addInvite (hip : ip ∈ addInvite cp now l) : ip.cli = cp ∨ ip ∈ l := by
  unfold addInvite at hip
  split at hip
  · rename_i hup
    exact mem_updateInvite hup hip
  · rcases List.mem_cons.mp hip with rfl | hip
    · exact .inl rfl
    · exact .inr ((sublist_kept l).subset hip)

/-- Where no two entries are for one client, the first one is the only one. -/
theorem eraseP_eq_filter (h : (l.map ChannelInvite.cli).Nodup) :
    (l.eraseP fun ip => ip.cli = c) = l.filter fun ip => ip.cli ≠ c := by
  induction l with
  | nil => rfl
  | cons a l ih =>
    rw [List.map_cons, List.nodup_cons] at h
    by_cases ha : a.cli = c
    · have hrest : ∀ ip ∈ l, ip.cli ≠ c := fun ip hip heq =>
        h.1 (List.mem_map.mpr ⟨ip, hip, heq.trans ha.symm⟩)
      simp only [ha, decide_true, List.eraseP_cons_of_pos, ne_eq, not_true_eq_false, decide_false,
        Bool.false_eq_true, not_false_eq_true, List.filter_cons_of_neg]
      exact (List.filter_eq_self.mpr fun ip hip => decide_eq_true (hrest ip hip)).symm
    · simp [ha, ih h.2]

theorem canJoinModeI_sublist : (canJoinModeI r c signon bans).invites.Sublist r.invites := by
  unfold canJoinModeI
  split
  · exact List.Sublist.refl _
  · dsimp only
    split <;> exact List.eraseP_sublist

/-- The check takes the entry of the client off, whatever it says. -/
theorem invites_canJoinModeI (h : (r.invites.map ChannelInvite.cli).Nodup) :
    (canJoinModeI r c signon bans).invites = r.invites.filter fun ip => ip.cli ≠ c := by
  unfold canJoinModeI
  split
  · rename_i hnone
    simp only [List.find?_eq_none, decide_eq_true_eq] at hnone
    exact (List.filter_eq_self.mpr fun ip hip => decide_eq_true (hnone ip hip)).symm
  · dsimp only
    split <;> exact eraseP_eq_filter h

/-- The channel is opened just for an entry that is as new as the client's sign-on. -/
theorem ret_canJoinModeI_iff (h : (r.invites.map ChannelInvite.cli).Nodup) :
    (canJoinModeI r c signon bans).ret = .alwaysOk ↔
      ∃ ip ∈ r.invites, ip.cli = c ∧ signon ≤ ip.invitedAt := by
  have hret : r.closed ≠ .alwaysOk := by
    unfold InviteChannel.closed
    split <;> simp
  unfold canJoinModeI
  split
  · rename_i hnone
    simp only [List.find?_eq_none, decide_eq_true_eq] at hnone
    exact iff_of_false hret fun hex => hnone hex.choose hex.choose_spec.1 hex.choose_spec.2.1
  · rename_i ip hfind
    have hmem := List.mem_of_find?_eq_some hfind
    have hcli : ip.cli = c := by simpa using List.find?_some hfind
    have honly : ∀ ip' ∈ r.invites, ip'.cli = c → ip' = ip := fun ip' hip' hcli' =>
      List.inj_on_of_nodup_map h hip' hmem (hcli'.trans hcli.symm)
    dsimp only
    split
    · rename_i hle
      exact iff_of_true rfl ⟨ip, hmem, hcli, hle⟩
    · rename_i hlt
      refine iff_of_false hret ?_
      rintro ⟨ip', hip', hcli', hle⟩
      exact hlt (honly ip' hip' hcli' ▸ hle)

theorem delUser_eq_some (h : r.delUser c = some r') :
    r'.which = r.which ∧ r'.invites = r.invites := by
  unfold InviteChannel.delUser at h
  dsimp only at h
  split at h
  · cases h
  · obtain rfl := Option.some.inj h
    exact ⟨rfl, rfl⟩

/-- A join adds no entry. -/
theorem enter_eq_some {cli : InviteClient} {before after : List ℤ}
    (h : InviteNet.enter r c cli bans before after = some r') :
    r'.which = r.which ∧ r'.invites.Sublist r.invites := by
  unfold InviteNet.enter at h
  split at h
  · obtain rfl := Option.some.inj h
    exact ⟨rfl, List.Sublist.refl _⟩
  · split at h
    · dsimp only at h
      split at h
      · obtain ⟨hwhich, hinvites⟩ := delUser_eq_some h
        exact ⟨hwhich, hinvites ▸ canJoinModeI_sublist⟩
      · obtain rfl := Option.some.inj h
        exact ⟨rfl, canJoinModeI_sublist⟩
    · dsimp only at h
      split at h
      · obtain ⟨hwhich, hinvites⟩ := delUser_eq_some h
        exact ⟨hwhich, hinvites ▸ List.Sublist.refl _⟩
      · obtain rfl := Option.some.inj h
        exact ⟨rfl, List.Sublist.refl _⟩

end

namespace InviteNet

/-! ### Steps -/

section
variable {net net' : InviteNet} {c ch : ℕ} {r : InviteChannel} {act : InviteAction}

/-- What every step keeps: lists are short and name no client twice, and numbers have been given
out. -/
structure Tidy (net : InviteNet) : Prop where
  short : ∀ ch r, net.chan ch = some r → r.invites.length ≤ maxInvitesPerChannel
  once : ∀ ch r, net.chan ch = some r → (r.invites.map ChannelInvite.cli).Nodup
  clients : ∀ p ∈ net.invited, p.1 < net.next
  channels : ∀ ch r, net.chan ch = some r → r.which < net.next
  online : ∀ c cli, net.client c = some cli → cli.which < net.next

/-- An entry that is as new as the sign-on of the client at its address is for this client. -/
def Meant (net : InviteNet) : Prop :=
  ∀ c cli ch r, net.client c = some cli → cli.mine = true → net.chan ch = some r →
    ∀ ip ∈ r.invites, ip.cli = c → cli.signon ≤ ip.invitedAt → (cli.which, r.which) ∈ net.invited

theorem guarded_iff_meant (h : net.Tidy) : net.Guarded ↔ net.Meant := by
  constructor
  · intro hguard c cli ch r hc hmine hch ip hip hcli hle
    have hret : (canJoinModeI r c cli.signon 0).ret = .alwaysOk :=
      (ret_canJoinModeI_iff (h.once ch r hch)).mpr ⟨ip, hip, hcli, hle⟩
    exact hguard.bypass c cli ch r 0 hc hmine hch hret
  · intro hmeant
    refine ⟨h.short, h.once,
      fun c cli ch r bans _ hch => invites_canJoinModeI (h.once ch r hch), ?_⟩
    intro c cli ch r bans hc hmine hch hret
    obtain ⟨ip, hip, hcli, hle⟩ := (ret_canJoinModeI_iff (h.once ch r hch)).mp hret
    exact hmeant c cli ch r hc hmine hch ip hip hcli hle

/-- Clients may go, and entries; a channel may come with an empty list. -/
structure Fewer (net net' : InviteNet) : Prop where
  client : ∀ c cli, net'.client c = some cli → net.client c = some cli
  chan : ∀ ch r', net'.chan ch = some r' →
    (∃ r, net.chan ch = some r ∧ r'.which = r.which ∧ r'.invites.Sublist r.invites) ∨
      (r'.which < net'.next ∧ r'.invites = [])
  next : net.next ≤ net'.next
  invited : net'.invited = net.invited

theorem Tidy.fewer (h : net.Tidy) (hfewer : Fewer net net') : net'.Tidy where
  short ch r' hch := by
    rcases hfewer.chan ch r' hch with ⟨r, hr, -, hsub⟩ | ⟨-, hnil⟩
    · exact hsub.length_le.trans (h.short ch r hr)
    · simp [hnil]
  once ch r' hch := by
    rcases hfewer.chan ch r' hch with ⟨r, hr, -, hsub⟩ | ⟨-, hnil⟩
    · exact (h.once ch r hr).sublist (hsub.map _)
    · simp [hnil]
  clients p hp := (h.clients p (hfewer.invited ▸ hp)).trans_le hfewer.next
  channels ch r' hch := by
    rcases hfewer.chan ch r' hch with ⟨r, hr, hwhich, -⟩ | ⟨hlt, -⟩
    · exact hwhich ▸ (h.channels ch r hr).trans_le hfewer.next
    · exact hlt
  online c cli hc := (h.online c cli (hfewer.client c cli hc)).trans_le hfewer.next

theorem Meant.fewer (h : net.Meant) (hfewer : Fewer net net') : net'.Meant := by
  intro c cli ch r' hc hmine hch ip hip hcli hle
  rw [hfewer.invited]
  rcases hfewer.chan ch r' hch with ⟨r, hr, hwhich, hsub⟩ | ⟨-, hnil⟩
  · rw [hwhich]
    exact h c cli ch r (hfewer.client c cli hc) hmine hr ip (hsub.subset hip) hcli hle
  · rw [hnil] at hip
    cases hip

theorem chan_setChan_self {o : Option InviteChannel} : (net.setChan ch o).chan ch = o :=
  Function.update_self ..

theorem client_signOn_self {mine : Bool} {signon : ℤ} :
    (net.signOn c mine signon).client c =
      some ⟨mine, if mine then net.now else signon, net.next⟩ :=
  Function.update_self ..

theorem client_signOn_of_ne {mine : Bool} {signon : ℤ} {d : ℕ} (hd : d ≠ c) :
    (net.signOn c mine signon).client d = net.client d :=
  Function.update_of_ne hd ..

theorem setChan_cases {o : Option InviteChannel} {ch' : ℕ} {r' : InviteChannel}
    (h : (net.setChan ch o).chan ch' = some r') :
    (ch' = ch ∧ o = some r') ∨ net.chan ch' = some r' := by
  by_cases hch : ch' = ch
  · subst hch
    exact .inl ⟨rfl, chan_setChan_self.symm.trans h⟩
  · exact .inr ((Function.update_of_ne hch ..).symm.trans h)

/-- One channel changes, and its list gets no longer. -/
theorem fewer_setChan {o : Option InviteChannel}
    (h : ∀ r', o = some r' →
      ∃ r, net.chan ch = some r ∧ r'.which = r.which ∧ r'.invites.Sublist r.invites) :
    Fewer net (net.setChan ch o) where
  client _ _ hc := hc
  chan ch' r' hch := by
    rcases setChan_cases hch with ⟨rfl, ho⟩ | hold
    · exact .inl (h r' ho)
    · exact .inl ⟨r', hold, rfl, List.Sublist.refl _⟩
  next := le_rfl
  invited := rfl

theorem fewer_signOff : Fewer net (net.signOff c) where
  client d cli hd := by
    by_cases hdc : d = c
    · subst hdc
      cases (Function.update_self ..).symm.trans hd
    · exact (Function.update_of_ne hdc ..).symm.trans hd
  chan ch r' hch := by
    obtain ⟨r, hr, hstay⟩ := Option.bind_eq_some_iff.mp hch
    split at hstay
    · obtain ⟨hwhich, hinvites⟩ := delUser_eq_some hstay
      exact .inl ⟨r, hr, hwhich, hinvites ▸ List.Sublist.refl _⟩
    · obtain rfl := Option.some.inj hstay
      exact .inl ⟨r, hr, rfl, List.Sublist.refl _⟩
  next := le_rfl
  invited := rfl

theorem fewer_join {bans : ℕ} {before after : List ℤ} :
    Fewer net (net.join c ch bans before after) := by
  have hsame : Fewer net net :=
    ⟨fun _ _ h => h, fun _ r' h => .inl ⟨r', h, rfl, List.Sublist.refl _⟩, le_rfl, rfl⟩
  unfold join
  split
  · exact hsame
  · split
    · rename_i r hr
      split
      · exact hsame
      · refine fewer_setChan fun r' hr' => ⟨r, hr, enter_eq_some hr'⟩
    · -- a new channel
      refine ⟨fun _ _ h => h, fun ch' r' hch => ?_, Nat.le_succ _, rfl⟩
      rcases setChan_cases hch with ⟨rfl, ho⟩ | hold
      · obtain ⟨hwhich, hsub⟩ := enter_eq_some ho
        exact .inr ⟨hwhich ▸ Nat.lt_succ_self net.next, List.sublist_nil.mp hsub⟩
      · exact .inl ⟨r', hold, rfl, List.Sublist.refl _⟩

/-- All but a sign-on and an invitation. -/
theorem fewer_step (hon : ∀ c mine signon, act ≠ .signOn c mine signon)
    (hinvite : ∀ c cp ch master op, act ≠ .invite c cp ch master op)
    (hstep : net.step act = some net') : Fewer net net' := by
  cases act with
  | signOn c mine signon => exact absurd rfl (hon c mine signon)
  | invite c cp ch master op => exact absurd rfl (hinvite c cp ch master op)
  | signOff c =>
    obtain rfl := Option.some.inj hstep
    exact fewer_signOff
  | join c ch bans before after =>
    obtain rfl := Option.some.inj hstep
    exact fewer_join
  | leave c ch =>
    obtain rfl := Option.some.inj hstep
    refine fewer_setChan fun r' hr' => ?_
    obtain ⟨r, hr, hdel⟩ := Option.bind_eq_some_iff.mp hr'
    obtain ⟨hwhich, hinvites⟩ := delUser_eq_some hdel
    exact ⟨r, hr, hwhich, hinvites ▸ List.Sublist.refl _⟩
  | setMode ch on =>
    obtain rfl := Option.some.inj hstep
    refine fewer_setChan fun r' hr' => ?_
    obtain ⟨r, hr, rfl⟩ := Option.map_eq_some_iff.mp hr'
    exact ⟨r, hr, rfl, List.Sublist.refl _⟩
  | clear ch =>
    obtain rfl := Option.some.inj hstep
    refine fewer_setChan fun r' hr' => ?_
    obtain ⟨r, hr, rfl⟩ := Option.map_eq_some_iff.mp hr'
    exact ⟨r, hr, rfl, List.nil_sublist _⟩
  | tick now =>
    obtain rfl := Option.some.inj hstep
    exact ⟨fun _ _ h => h, fun _ r' h => .inl ⟨r', h, rfl, List.Sublist.refl _⟩, le_rfl, rfl⟩

/-- An invitation is noted, and may change one list. -/
theorem invite_cases (cp ch : Option ℕ) (master op : Bool) :
    net.invite c cp ch master op = net ∨ ∃ a b cpr chp, net.client a = some cpr ∧
      net.chan b = some chp ∧
      (net.invite c cp ch master op =
          { net with invited := (cpr.which, chp.which) :: net.invited } ∨
        net.invite c cp ch master op =
          { net with invited := (cpr.which, chp.which) :: net.invited }.setChan b
            (some { chp with invites := addInvite a net.now chp.invites })) := by
  unfold invite
  split
  · rename_i a b
    split
    · rename_i cpr chp hcpr hchp
      split
      · exact .inl rfl
      · split
        · exact .inl rfl
        · split
          · exact .inl rfl
          · refine .inr ⟨a, b, cpr, chp, hcpr, hchp, ?_⟩
            dsimp only
            split
            · exact .inr rfl
            · exact .inl rfl
    · exact .inl rfl
  · exact .inl rfl

theorem Tidy.invite {cp ch : Option ℕ} {master op : Bool} (h : net.Tidy) :
    (net.invite c cp ch master op).Tidy := by
  have hclients : ∀ {a cpr b}, net.client a = some cpr →
      ∀ p ∈ (cpr.which, b) :: net.invited, p.1 < net.next := by
    intro a cpr b hcpr p hp
    rcases List.mem_cons.mp hp with rfl | hp
    · exact h.online a cpr hcpr
    · exact h.clients p hp
  rcases net.invite_cases cp ch master op with heq | ⟨a, b, cpr, chp, hcpr, hchp, heq | heq⟩
  · exact heq.symm ▸ h
  · rw [heq]
    exact ⟨h.short, h.once, hclients hcpr, h.channels, h.online⟩
  · rw [heq]
    refine ⟨fun ch r hch => ?_, fun ch r hch => ?_, hclients hcpr, fun ch r hch => ?_, h.online⟩
    · rcases setChan_cases hch with ⟨-, ho⟩ | hold
      · exact Option.some.inj ho ▸ length_addInvite_le (h.short b chp hchp)
      · exact h.short ch r hold
    · rcases setChan_cases hch with ⟨-, ho⟩ | hold
      · exact Option.some.inj ho ▸ nodup_addInvite (h.once b chp hchp)
      · exact h.once ch r hold
    · rcases setChan_cases hch with ⟨-, ho⟩ | hold
      · exact Option.some.inj ho ▸ h.channels b chp hchp
      · exact h.channels ch r hold

theorem Meant.invite {cp ch : Option ℕ} {master op : Bool} (h : net.Meant) :
    (net.invite c cp ch master op).Meant := by
  rcases net.invite_cases cp ch master op with heq | ⟨a, b, cpr, chp, hcpr, hchp, heq | heq⟩
  · exact heq.symm ▸ h
  · rw [heq]
    intro d cli ch r hd hmine hch ip hip hcli hle
    exact List.mem_cons_of_mem _ (h d cli ch r hd hmine hch ip hip hcli hle)
  · rw [heq]
    intro d cli ch r hd hmine hch ip hip hcli hle
    rcases setChan_cases hch with ⟨-, ho⟩ | hold
    · obtain rfl := Option.some.inj ho
      rcases mem_addInvite hip with hnew | hold
      · -- the entry is for the client that has just been invited
        have hda : d = a := hcli.symm.trans hnew
        have hcpr' : cli = cpr := Option.some.inj (hd.symm.trans (hda ▸ hcpr))
        rw [hcpr']
        exact List.mem_cons_self
      · exact List.mem_cons_of_mem _ (h d cli b chp hd hmine hchp ip hold hcli hle)
    · exact List.mem_cons_of_mem _ (h d cli ch r hd hmine hold ip hip hcli hle)

theorem Tidy.signOn {mine : Bool} {signon : ℤ} (h : net.Tidy) :
    (net.signOn c mine signon).Tidy where
  short := h.short
  once := h.once
  clients p hp := (h.clients p hp).trans (Nat.lt_succ_self _)
  channels ch r hch := (h.channels ch r hch).trans (Nat.lt_succ_self _)
  online d cli hd := by
    by_cases hdc : d = c
    · subst hdc
      obtain rfl := Option.some.inj (client_signOn_self.symm.trans hd)
      exact Nat.lt_succ_self net.next
    · exact (h.online d cli ((client_signOn_of_ne hdc).symm.trans hd)).trans (Nat.lt_succ_self _)

/-- A new client of ours has not been invited by its number, so no entry may be as new as it. -/
theorem meant_signOn_iff {mine : Bool} {signon : ℤ} (h : net.Tidy) (hmeant : net.Meant) :
    (net.signOn c mine signon).Meant ↔ net.Unclaimed (.signOn c mine signon) := by
  constructor
  · intro hnew hmine ch r hch ip hip hcli
    subst hmine
    by_contra hle
    have hself : (net.signOn c true signon).client c = some ⟨true, net.now, net.next⟩ :=
      client_signOn_self
    have hin := hnew c _ ch r hself rfl hch ip hip hcli (not_lt.mp hle)
    exact absurd (h.clients _ hin) (lt_irrefl net.next)
  · intro hfree d cli ch r hd hmine hch ip hip hcli hle
    by_cases hdc : d = c
    · subst hdc
      obtain rfl := Option.some.inj (client_signOn_self.symm.trans hd)
      obtain rfl : mine = true := hmine
      exact absurd hle (not_le.mpr (hfree rfl ch r hch ip hip hcli))
    · have hd' := (client_signOn_of_ne hdc).symm.trans hd
      exact hmeant d cli ch r hd' hmine hch ip hip hcli hle

theorem signOn_of_step {mine : Bool} {signon : ℤ}
    (hstep : net.step (.signOn c mine signon) = some net') : net.signOn c mine signon = net' := by
  simp only [step, Option.ite_none_right_eq_some] at hstep
  exact Option.some.inj hstep.2

theorem Tidy.step (h : net.Tidy) (hstep : net.step act = some net') : net'.Tidy := by
  cases act with
  | signOn c mine signon => exact signOn_of_step hstep ▸ h.signOn
  | invite c cp ch master op => exact Option.some.inj hstep ▸ h.invite
  | _ => exact h.fewer (fewer_step (by simp) (by simp) hstep)

theorem meant_step_iff (h : net.Tidy) (hmeant : net.Meant) (hstep : net.step act = some net') :
    net'.Meant ↔ net.Unclaimed act := by
  cases act with
  | signOn c mine signon => exact signOn_of_step hstep ▸ meant_signOn_iff h hmeant
  | invite c cp ch master op =>
    exact iff_of_true (Option.some.inj hstep ▸ hmeant.invite) trivial
  | _ => exact iff_of_true (hmeant.fewer (fewer_step (by simp) (by simp) hstep)) trivial

theorem tidy_start : start.Tidy where
  short _ _ h := by cases h
  once _ _ h := by cases h
  clients _ h := by cases h
  channels _ _ h := by cases h
  online _ _ h := by cases h

/-- In every state of a run the lists are guarded just if no client gets the address of an entry
that is as new as its sign-on. -/
theorem guarded_iff {acts : List InviteAction} (hrun : Run.run step start acts = some net) :
    (∀ before behind net', acts = before ++ behind → Run.run step start before = some net' →
      net'.Guarded) ↔ Run.Along step Unclaimed start acts := by
  have hmeant : start.Meant := fun _ _ _ _ h => by cases h
  refine Iff.trans ?_ (Run.forall_reached_iff (I := Tidy) (P := Meant)
    (fun _ _ _ h hstep => h.step hstep) (fun _ _ _ h hmeant hstep => meant_step_iff h hmeant hstep)
    tidy_start hmeant hrun)
  have htidy : ∀ before net', Run.run step start before = some net' → net'.Tidy :=
    fun before net' hbefore => Run.run_induction (I := fun _ net => net.Tidy) tidy_start
      (fun _ _ _ _ h hstep => h.step hstep) hbefore
  constructor
  · intro hguard before behind net' heq hbefore
    exact (guarded_iff_meant (htidy before net' hbefore)).mp (hguard before behind net' heq hbefore)
  · intro hall before behind net' heq hbefore
    exact (guarded_iff_meant (htidy before net' hbefore)).mpr (hall before behind net' heq hbefore)

/-- An operator makes a channel and closes it, and a client that is invited joins it. -/
def openedChannel : List InviteAction :=
  [.signOn 0 true 0, .signOn 1 true 0, .tick 7, .join 0 0 0 [] [], .setMode 0 true,
    .invite 0 (some 1) (some 0) false true, .join 1 0 3 [HookCond.ok.code] [], .signOff 1]

theorem guarded_iff_openedChannel : ∃ net, Run.run step start openedChannel = some net ∧
    net.Guarded ∧ net.invited = [(1, 2)] := by
  have hvals : (Run.run step start openedChannel).map InviteNet.invited = some [(1, 2)] := by
    decide +kernel
  obtain ⟨net, hrun, hinvited⟩ := Option.map_eq_some_iff.mp hvals
  -- no channel is there when the clients sign on
  have halong : Run.Along step Unclaimed start openedChannel := by
    refine ⟨fun _ ch r hch => ?_, fun net₁ h₁ => ⟨fun _ ch r hch => ?_, fun _ _ => ?_⟩⟩
    · cases hch
    · obtain rfl := Option.some.inj h₁
      cases hch
    · exact ⟨trivial, fun _ _ => ⟨trivial, fun _ _ => ⟨trivial, fun _ _ => ⟨trivial, fun _ _ =>
        ⟨trivial, fun _ _ => ⟨trivial, fun _ _ => trivial⟩⟩⟩⟩⟩⟩
  exact ⟨net, hrun,
    (guarded_iff hrun).mpr halong openedChannel [] net (List.append_nil _).symm hrun,
    hinvited⟩

/-- A client signs on in the second in which another one was invited and signed off, and is given
its memory: it is let into the channel. -/
theorem guard_fails : ¬ ∀ (acts : List InviteAction) (net : InviteNet),
    Run.run step start acts = some net → net.Guarded := by
  intro hall
  have hvals : (Run.run step start
      [.signOn 0 true 0, .join 0 0 0 [] [], .setMode 0 true, .signOn 1 true 0,
        .invite 0 (some 1) (some 0) false true, .signOff 1, .signOn 1 true 0]).map
      (fun net => (net.client 1, net.chan 0, net.invited)) =
      some (some ⟨true, 0, 3⟩, some ⟨true, [⟨1, 0⟩], [⟨0, 0⟩], 1⟩, [(2, 1)]) := by
    decide +kernel
  obtain ⟨net, hrun, hnet⟩ := Option.map_eq_some_iff.mp hvals
  simp only [Prod.mk.injEq] at hnet
  obtain ⟨hclient, hchan, hinvited⟩ := hnet
  have hin := (hall _ net hrun).bypass 1 _ 0 _ 0 hclient rfl hchan rfl
  rw [hinvited] at hin
  simp at hin

end

end InviteNet

end Ithildin
