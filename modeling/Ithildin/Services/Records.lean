import Ithildin.Services.Nick
import Mathlib.Data.List.Nodup
import Mathlib.Logic.Relation

/-!
# The records of registered nicks

The nicks with their mail contacts and the nicks linked to them, as they lie in memory.

* `NickRecord`, `MailContact`, `NickStore`: what is there, by address, and the two lists;
* `regnickDestroy`: a nick is destroyed with all that is linked to it, and its mail contact if
  nothing else uses it;
* `Sound`: the records refer to each other as they should, but for those that are being destroyed;
* `Sound.regnickDestroy`: destroying a nick keeps that, and takes nothing but what is linked to it.
-/

namespace Ithildin

/-- `struct regnick`, with the fields that the commands do not look at. -/
structure NickRecord extends Regnick where
  user : Bytes
  host : Bytes
  info : Bytes
  regtime : ℤ
  email : Option ℕ
  links : List ℕ

/-- `struct mail_contact`. -/
structure MailContact where
  address : Bytes
  nicks : ℤ
  last : ℤ

/-- The nicks and the mail contacts that are there, by address, `services.db.list.nicks` and
`services.db.list.mail`. -/
@[ext] structure NickStore where
  nick : ℕ → Option NickRecord
  nicks : List ℕ
  contact : ℕ → Option MailContact
  mails : List ℕ

namespace NickStore

/-! ### The functions -/

/-- A nick is written to. -/
def modifyNick (s : NickStore) (addr : ℕ) (f : NickRecord → NickRecord) : NickStore :=
  { s with nick := Function.update s.nick addr ((s.nick addr).map f) }

/-- A mail contact is written to. -/
def modifyMail (s : NickStore) (m : ℕ) (f : MailContact → MailContact) : NickStore :=
  { s with contact := Function.update s.contact m ((s.contact m).map f) }

/-- `regnick_create`, and what is filled in. -/
def regnickCreate (s : NickStore) (addr : ℕ) (np : NickRecord) : NickStore :=
  { s with nick := Function.update s.nick addr (some np), nicks := addr :: s.nicks }

/-- `create_mail_contact`, and what is filled in. -/
def createMailContact (s : NickStore) (m : ℕ) (mcp : MailContact) : NickStore :=
  { s with contact := Function.update s.contact m (some mcp), mails := m :: s.mails }

/-- `db_find_nick`. -/
def dbFindNick (fold : Bytes → Bytes) (s : NickStore) (name : Bytes) : Option ℕ :=
  s.nicks.find? fun a => (s.nick a).any fun np => fold np.name == fold name

/-- `db_find_mail`. -/
def dbFindMail (s : NickStore) (address : Bytes) : Option ℕ :=
  s.mails.find? fun m => (s.contact m).any fun mcp => sameCase mcp.address address

/-- `destroy_mail_contact`. -/
def destroyMailContact (s : NickStore) (m : ℕ) : NickStore :=
  { s with contact := Function.update s.contact m none, mails := s.mails.erase m }

/-- A nick no longer uses its mail contact; `none` if the contact has been freed. -/
def releaseMail (s : NickStore) (m : ℕ) : Option NickStore :=
  match s.contact m with
  | none => none
  | some mcp =>
      if mcp.nicks - 1 = 0 then some (s.destroyMailContact m)
      else some (s.modifyMail m fun mcp => { mcp with nicks := mcp.nicks - 1 })

/-- The loop of `regnick_destroy` over the nicks that are linked to one. -/
def destroyLinks (destroy : NickStore → ℕ → Option NickStore) (addr : ℕ) :
    ℕ → NickStore → Option NickStore
  | k, s =>
      match s.nick addr with
      | none => none
      | some np =>
          match np.links, k with
          | [], _ => some s
          | _ :: _, 0 => none
          | a :: _, k + 1 => (destroy s a).bind (destroyLinks destroy addr k)

/-- The end of `regnick_destroy`: the nick is taken off the lists, and freed. -/
def dropNick (s : NickStore) (addr : ℕ) (parent : Option ℕ) : NickStore :=
  let s := parent.elim s fun p => s.modifyNick p fun np => { np with links := np.links.erase addr }
  { s with nick := Function.update s.nick addr none, nicks := s.nicks.erase addr }

/-- `regnick_destroy`, so many calls deep; `none` if memory is touched that has been freed. -/
def regnickDestroy : ℕ → NickStore → ℕ → Option NickStore
  | 0, _, _ => none
  | n + 1, s, addr => do
      let np ← s.nick addr
      let s ← np.email.elim (some s) s.releaseMail
      let s ← destroyLinks (regnickDestroy n) addr np.links.length s
      if np.parent.all fun p => (s.nick p).isSome then some (s.dropNick addr np.parent) else none

/-! ### What holds -/

/-- The nicks that use a mail contact, but for those that are being destroyed. -/
def users (s : NickStore) (t : List ℕ) (m : ℕ) : List ℕ :=
  s.nicks.filter fun a => decide (a ∉ t) && (s.nick a).any fun np => np.email == some m

/-- The records refer to each other as they should, where the nicks of `t` are being destroyed: the
lists are of what is there; a linked nick and its parent know each other; and a nick has a mail
contact, which counts the nicks that use it. -/
structure Sound (t : List ℕ) (s : NickStore) : Prop where
  nodup : s.nicks.Nodup
  mem : ∀ a, a ∈ s.nicks ↔ s.nick a ≠ none
  parent : ∀ a np p, s.nick a = some np → np.parent = some p → ∃ pp, s.nick p = some pp ∧
    a ∈ pp.links
  links : ∀ p pp, s.nick p = some pp → pp.links.Nodup ∧
    ∀ a ∈ pp.links, ∃ np, s.nick a = some np ∧ np.parent = some p
  email : ∀ a np, s.nick a = some np → a ∉ t → ∃ m mcp, np.email = some m ∧
    s.contact m = some mcp
  count : ∀ m mcp, s.contact m = some mcp → mcp.nicks = (s.users t m).length ∧ 0 < mcp.nicks
  mails : s.mails.Nodup
  mem_mails : ∀ m, m ∈ s.mails ↔ s.contact m ≠ none

/-- Each nick is linked to one of a higher rank. -/
def Ranked (rank : ℕ → ℕ) (s : NickStore) : Prop :=
  ∀ a np p, s.nick a = some np → np.parent = some p → rank a < rank p

/-- A nick is another, or is linked to one that is below it. -/
def Below (s : NickStore) : ℕ → ℕ → Prop :=
  Relation.ReflTransGen fun a p => ∃ np, s.nick a = some np ∧ np.parent = some p

/-- Nicks have been destroyed, and taken off the lists of those they were linked to. -/
structure Shrunk (s s' : NickStore) : Prop where
  nicks : s'.nicks.Sublist s.nicks
  nick : ∀ a np', s'.nick a = some np' → ∃ np, s.nick a = some np ∧
    np' = { np with links := np'.links } ∧ np'.links.Sublist np.links

theorem Shrunk.refl (s : NickStore) : Shrunk s s :=
  ⟨.refl _, fun _ np' h => ⟨np', h, rfl, .refl _⟩⟩

theorem Shrunk.trans {s s' s'' : NickStore} (h : Shrunk s s') (h' : Shrunk s' s'') :
    Shrunk s s'' := by
  refine ⟨h'.nicks.trans h.nicks, fun a np'' hnp'' => ?_⟩
  obtain ⟨np', hnp', heq', hsub'⟩ := h'.nick a np'' hnp''
  obtain ⟨np, hnp, heq, hsub⟩ := h.nick a np' hnp'
  refine ⟨np, hnp, ?_, hsub'.trans hsub⟩
  rw [heq', heq]

variable {s s' s'' : NickStore} {t : List ℕ} {rank : ℕ → ℕ} {a m : ℕ} {np : NickRecord} {n : ℕ}

theorem Ranked.shrunk (h : Ranked rank s) (hs : Shrunk s s') : Ranked rank s' := by
  intro a np' p hnp' hp
  obtain ⟨np, hnp, heq, -⟩ := hs.nick a np' hnp'
  rw [heq] at hp
  exact h a np p hnp hp

theorem Below.shrunk {x : ℕ} (h : Below s' x a) (hs : Shrunk s s') : Below s x a := by
  induction h with
  | refl => exact .refl
  | tail _ hstep ih =>
    obtain ⟨np', hnp', hp⟩ := hstep
    obtain ⟨np, hnp, heq, -⟩ := hs.nick _ np' hnp'
    rw [heq] at hp
    exact ih.tail ⟨np, hnp, hp⟩

theorem Sound.mem_mails_of_eq_some (h : Sound t s) {mcp : MailContact}
    (hm : s.contact m = some mcp) : m ∈ s.mails := by
  rw [h.mem_mails, hm]
  simp

/-! ### A mail contact is released -/

theorem mem_users {x : ℕ} : x ∈ s.users t m ↔ x ∈ s.nicks ∧ x ∉ t ∧
    ∃ np, s.nick x = some np ∧ np.email = some m := by
  rw [users, List.mem_filter, Bool.and_eq_true, decide_eq_true_eq, Option.any_eq_true]
  simp only [beq_iff_eq]

/-- One more nick is being destroyed. -/
theorem length_users_cons (h : Sound t s) (ha : s.nick a = some np) (hat : a ∉ t) :
    (s.users t m).length = (s.users (a :: t) m).length + if np.email = some m then 1 else 0 := by
  have hmem : a ∈ s.nicks := (h.mem a).mpr (by simp [ha])
  have hcons : s.users (a :: t) m = (s.users t m).filter (· != a) := by
    rw [users, users, List.filter_filter]
    refine List.filter_congr fun x _ => ?_
    by_cases hx : x = a
    · simp [hx]
    · simp [hx]
  have hnodup : (s.users t m).Nodup := h.nodup.filter _
  split
  · rename_i hm
    have hin : a ∈ s.users t m := mem_users.mpr ⟨hmem, hat, np, ha, hm⟩
    rw [hcons, ← hnodup.erase_eq_filter, List.length_erase_of_mem hin]
    have hpos := List.length_pos_of_mem hin
    omega
  · rename_i hm
    rw [hcons, List.filter_eq_self.mpr, Nat.add_zero]
    intro x hx
    rw [bne_iff_ne]
    rintro rfl
    obtain ⟨-, -, np', hnp', hm'⟩ := mem_users.mp hx
    obtain rfl := Option.some.inj (ha.symm.trans hnp')
    exact hm hm'

/-- The others that use a mail contact are as many as before. -/
theorem length_users_other {m' : ℕ} (h : Sound t s) (ha : s.nick a = some np) (hat : a ∉ t)
    (hm : np.email = some m) (hne : m' ≠ m) :
    (s.users t m').length = (s.users (a :: t) m').length := by
  rw [length_users_cons h ha hat, if_neg, Nat.add_zero]
  rw [hm]
  exact fun heq => hne (Option.some.inj heq).symm

section

variable {m' : ℕ} {mcp mcp' : MailContact}

theorem destroyMailContact_eq_some :
    (s.destroyMailContact m).contact m' = some mcp' ↔ m' ≠ m ∧ s.contact m' = some mcp' := by
  rw [destroyMailContact]
  dsimp only
  by_cases heq : m' = m
  · simp [heq]
  · simp [heq]

theorem modifyMail_eq_some {f : MailContact → MailContact} (hmcp : s.contact m = some mcp) :
    (s.modifyMail m f).contact m' = some mcp' ↔
      (m' = m ∧ mcp' = f mcp) ∨ m' ≠ m ∧ s.contact m' = some mcp' := by
  rw [modifyMail]
  dsimp only
  by_cases heq : m' = m
  · simp [heq, hmcp, eq_comm]
  · simp [heq]

theorem modifyMail_ne_none {f : MailContact → MailContact} :
    (s.modifyMail m f).contact m' ≠ none ↔ s.contact m' ≠ none := by
  rw [modifyMail]
  dsimp only
  by_cases heq : m' = m
  · simp [heq]
  · rw [Function.update_of_ne heq]

/-- A nick that is being destroyed was the only one that used its mail contact. -/
theorem Sound.destroyMailContact (h : Sound t s) (ha : s.nick a = some np) (hat : a ∉ t)
    (hm : np.email = some m) (hnil : s.users (a :: t) m = []) :
    Sound (a :: t) (s.destroyMailContact m) where
  nodup := h.nodup
  mem := h.mem
  parent := h.parent
  links := h.links
  email := by
    intro x np' hx hxt
    obtain ⟨hxa, hxt⟩ := List.ne_and_not_mem_of_not_mem_cons hxt
    obtain ⟨m', mcp', hm', hmcp'⟩ := h.email x np' hx hxt
    refine ⟨m', mcp', hm', destroyMailContact_eq_some.mpr ⟨?_, hmcp'⟩⟩
    rintro rfl
    have hthere : s.nick x ≠ none := fun hnone => by
      cases hnone.symm.trans hx
    have hin : x ∈ s.users (a :: t) m' := mem_users.mpr
      ⟨(h.mem x).mpr hthere, List.not_mem_cons_of_ne_of_not_mem hxa hxt, np', hx, hm'⟩
    rw [hnil] at hin
    cases hin
  count := by
    intro m' mcp' hm'
    obtain ⟨hne, hm'⟩ := destroyMailContact_eq_some.mp hm'
    obtain ⟨hcount, hpos⟩ := h.count m' mcp' hm'
    refine ⟨?_, hpos⟩
    rw [hcount, length_users_other h ha hat hm hne]
    rfl
  mails := h.mails.erase m
  mem_mails := by
    intro m'
    change m' ∈ s.mails.erase m ↔ Function.update s.contact m none m' ≠ none
    rw [h.mails.mem_erase_iff, h.mem_mails]
    by_cases heq : m' = m
    · simp [heq]
    · rw [Function.update_of_ne heq]
      exact and_iff_right heq

/-- Others still use the mail contact of a nick that is being destroyed. -/
theorem Sound.uncountMail (h : Sound t s) (ha : s.nick a = some np) (hat : a ∉ t)
    (hm : np.email = some m) (hmcp : s.contact m = some mcp) (hzero : mcp.nicks - 1 ≠ 0) :
    Sound (a :: t) (s.modifyMail m fun mcp => { mcp with nicks := mcp.nicks - 1 }) where
  nodup := h.nodup
  mem := h.mem
  parent := h.parent
  links := h.links
  email := by
    intro x np' hx hxt
    obtain ⟨m', mcp', hm', hmcp'⟩ := h.email x np' hx (List.not_mem_of_not_mem_cons hxt)
    have hne : s.contact m' ≠ none := fun hnone => by
      cases hnone.symm.trans hmcp'
    obtain ⟨mcp'', hmcp''⟩ := Option.ne_none_iff_exists'.mp (modifyMail_ne_none.mpr hne)
    exact ⟨m', mcp'', hm', hmcp''⟩
  count := by
    intro m' mcp' hm'
    rcases (modifyMail_eq_some hmcp).mp hm' with ⟨rfl, rfl⟩ | ⟨hne, hm'⟩
    · obtain ⟨hcount, hpos⟩ := h.count m' mcp hmcp
      have hone := length_users_cons (m := m') h ha hat
      rw [if_pos hm] at hone
      change mcp.nicks - 1 = ((s.users (a :: t) m').length : ℤ) ∧ 0 < mcp.nicks - 1
      omega
    · obtain ⟨hcount, hpos⟩ := h.count m' mcp' hm'
      refine ⟨?_, hpos⟩
      rw [hcount, length_users_other h ha hat hm hne]
      rfl
  mails := h.mails
  mem_mails := fun m' => (h.mem_mails m').trans modifyMail_ne_none.symm

end

/-- A nick that is being destroyed does not use its mail contact. -/
theorem Sound.releaseMail (h : Sound t s) (ha : s.nick a = some np) (hat : a ∉ t) :
    ∃ s', np.email.elim (some s) s.releaseMail = some s' ∧ Sound (a :: t) s' ∧
      s'.nick = s.nick ∧ s'.nicks = s.nicks := by
  obtain ⟨m, mcp, hm, hmcp⟩ := h.email a np ha hat
  rw [hm, Option.elim_some, NickStore.releaseMail, hmcp]
  dsimp only
  split
  · rename_i hzero
    have hnil : s.users (a :: t) m = [] := by
      obtain ⟨hcount, -⟩ := h.count m mcp hmcp
      have hone := length_users_cons (m := m) h ha hat
      rw [if_pos hm] at hone
      exact List.length_eq_zero_iff.mp (by omega)
    exact ⟨_, rfl, h.destroyMailContact ha hat hm hnil, rfl, rfl⟩
  · rename_i hzero
    exact ⟨_, rfl, h.uncountMail ha hat hm hmcp hzero, rfl, rfl⟩

/-! ### A nick is destroyed -/

/-- A nick has been destroyed, and nothing but what is below it. -/
structure Destroyed (t : List ℕ) (s s' : NickStore) (a : ℕ) : Prop where
  sound : Sound t s'
  shrunk : Shrunk s s'
  gone : s'.nick a = none
  below : ∀ x, s.nick x ≠ none → s'.nick x = none → Below s x a

theorem Ranked.le_of_below {x : ℕ} (hrank : Ranked rank s) (h : Below s x a) :
    rank x ≤ rank a := by
  induction h with
  | refl => exact Nat.le_refl _
  | tail _ hstep ih =>
    obtain ⟨np, hnp, hp⟩ := hstep
    exact ih.trans (hrank _ np _ hnp hp).le

/-- The nicks that are linked to one are destroyed, each of which takes itself off the list. -/
theorem Sound.destroyLinks
    (hdestroy : ∀ s c np, Sound t s → Ranked rank s → s.nick c = some np → rank c < rank a →
      (s.nicks.filter (· ∉ t)).length < n → ∃ s', regnickDestroy n s c = some s' ∧
        Destroyed t s s' c)
    (h : Sound t s) (hrank : Ranked rank s) (ha : s.nick a = some np)
    (hfuel : (s.nicks.filter (· ∉ t)).length < n) {k : ℕ} (hk : np.links.length ≤ k) :
    ∃ s' np', NickStore.destroyLinks (regnickDestroy n) a k s = some s' ∧ Sound t s' ∧
      Shrunk s s' ∧ s'.nick a = some np' ∧ np' = { np with links := [] } ∧
      ∀ x, s.nick x ≠ none → s'.nick x = none → Below s x a := by
  induction k generalizing s np with
  | zero =>
    have hnil : np.links = [] := List.length_eq_zero_iff.mp (Nat.le_zero.mp hk)
    refine ⟨s, np, ?_, h, .refl s, ha, ?_, fun x hx hx' => absurd hx' hx⟩
    · rw [NickStore.destroyLinks, ha]
      dsimp only
      rw [hnil]
    · rw [← hnil]
  | succ k ih =>
    rw [NickStore.destroyLinks, ha]
    dsimp only
    cases hlinks : np.links with
    | nil =>
      refine ⟨s, np, rfl, h, .refl s, ha, ?_, fun x hx hx' => absurd hx' hx⟩
      rw [← hlinks]
    | cons c rest =>
      obtain ⟨-, hchildren⟩ := h.links a np ha
      obtain ⟨npc, hc, hpc⟩ := hchildren c (by rw [hlinks]; exact List.mem_cons_self)
      have hlt := hrank c npc a hc hpc
      obtain ⟨s₁, hs₁, hd⟩ := hdestroy s c npc h hrank hc hlt hfuel
      -- the nick itself is left, without the one that has been destroyed
      have halive : s₁.nick a ≠ none := fun hnone => by
        have hle := hrank.le_of_below (hd.below a (by simp [ha]) hnone)
        omega
      obtain ⟨np₁, hnp₁⟩ := Option.ne_none_iff_exists'.mp halive
      obtain ⟨np₀, hnp₀, heq, hsub⟩ := hd.shrunk.nick a np₁ hnp₁
      obtain rfl := Option.some.inj (ha.symm.trans hnp₀)
      have hnot : c ∉ np₁.links := fun hmem => by
        obtain ⟨npc', hc', -⟩ := (hd.sound.links a np₁ hnp₁).2 c hmem
        rw [hd.gone] at hc'
        cases hc'
      have hlen : np₁.links.length ≤ k := by
        rw [hlinks, List.length_cons] at hk
        rw [hlinks] at hsub
        rcases List.sublist_cons_iff.mp hsub with hsub | ⟨r, hr, -⟩
        · exact hsub.length_le.trans (Nat.le_of_succ_le_succ hk)
        · exact absurd (hr ▸ List.mem_cons_self) hnot
      have hfuel₁ : (s₁.nicks.filter (· ∉ t)).length < n :=
        Nat.lt_of_le_of_lt (hd.shrunk.nicks.filter _).length_le hfuel
      obtain ⟨s₂, np₂, hs₂, hsound, hshrunk, hnp₂, heq₂, hbelow⟩ :=
        ih hd.sound (hrank.shrunk hd.shrunk) hnp₁ hfuel₁ hlen
      dsimp only
      rw [hs₁, Option.bind_some]
      refine ⟨s₂, np₂, hs₂, hsound, hd.shrunk.trans hshrunk, hnp₂, ?_, fun x hx hx' => ?_⟩
      · rw [heq₂, heq]
      · by_cases hx₁ : s₁.nick x = none
        · exact (hd.below x hx hx₁).tail ⟨npc, hc, hpc⟩
        · exact (hbelow x hx₁ hx').shrunk hd.shrunk

section

variable {x : ℕ} {o : Option ℕ} {r' : NickRecord}

/-- What becomes of each nick when one is taken off the lists. -/
theorem nick_dropNick (s : NickStore) (a : ℕ) (o : Option ℕ) (x : ℕ) :
    (s.dropNick a o).nick x = if x = a then none else (s.nick x).map
      fun r => if o = some x then { r with links := r.links.erase a } else r := by
  rw [NickStore.dropNick]
  dsimp only
  by_cases hx : x = a
  · rw [if_pos hx, hx, Function.update_self]
  · rw [if_neg hx, Function.update_of_ne hx]
    cases o with
    | none => simp
    | some p =>
      rw [Option.elim_some, modifyNick]
      dsimp only
      by_cases hxp : x = p
      · subst hxp
        simp
      · rw [Function.update_of_ne hxp]
        simp [Ne.symm hxp]

theorem dropNick_eq_some : (s.dropNick a o).nick x = some r' ↔ x ≠ a ∧ ∃ r, s.nick x = some r ∧
    r' = if o = some x then { r with links := r.links.erase a } else r := by
  rw [nick_dropNick]
  split
  · rename_i hx
    simp [hx]
  · rename_i hx
    rw [Option.map_eq_some_iff]
    simp only [ne_eq, hx, not_false_eq_true, true_and, eq_comm]

theorem dropNick_eq_none : (s.dropNick a o).nick x = none ↔ x = a ∨ s.nick x = none := by
  rw [nick_dropNick]
  split
  · rename_i hx
    exact iff_of_true rfl (.inl hx)
  · rename_i hx
    rw [Option.map_eq_none_iff, or_iff_right hx]

theorem nicks_dropNick (s : NickStore) (a : ℕ) (o : Option ℕ) :
    (s.dropNick a o).nicks = s.nicks.erase a := by
  rw [NickStore.dropNick]
  cases o <;> rfl

theorem contact_dropNick (s : NickStore) (a : ℕ) (o : Option ℕ) :
    (s.dropNick a o).contact = s.contact := by
  rw [NickStore.dropNick]
  cases o <;> rfl

theorem mails_dropNick (s : NickStore) (a : ℕ) (o : Option ℕ) :
    (s.dropNick a o).mails = s.mails := by
  rw [NickStore.dropNick]
  cases o <;> rfl

theorem shrunk_dropNick (s : NickStore) (a : ℕ) (o : Option ℕ) : Shrunk s (s.dropNick a o) where
  nicks := nicks_dropNick s a o ▸ List.erase_sublist
  nick := by
    intro x r' hx
    obtain ⟨-, r, hr, heq⟩ := dropNick_eq_some.mp hx
    refine ⟨r, hr, ?_⟩
    rw [heq]
    split
    · exact ⟨rfl, List.erase_sublist⟩
    · exact ⟨rfl, .refl _⟩

/-- The nick that is taken off the lists no longer counts as being destroyed. -/
theorem users_dropNick (hnodup : s.nicks.Nodup) :
    (s.dropNick a o).users t m = s.users (a :: t) m := by
  rw [users, users, nicks_dropNick, hnodup.erase_eq_filter, List.filter_filter]
  refine List.filter_congr fun x _ => ?_
  by_cases hx : x = a
  · simp [hx]
  · have hany : ((s.dropNick a o).nick x).any (fun r => r.email == some m) =
        (s.nick x).any fun r => r.email == some m := by
      rw [nick_dropNick, if_neg hx]
      cases s.nick x with
      | none => rfl
      | some r =>
        rw [Option.map_some, Option.any_some, Option.any_some]
        split <;> rfl
    rw [hany]
    simp [hx]

/-- A nick that nothing is linked to is taken off the lists. -/
theorem Sound.dropNick (h : Sound (a :: t) s) (ha : s.nick a = some np) (hlinks : np.links = []) :
    (np.parent.all fun p => (s.nick p).isSome) = true ∧ Sound t (s.dropNick a np.parent) := by
  have hshrunk := shrunk_dropNick s a np.parent
  refine ⟨?_, ?_⟩
  · rw [Option.all_eq_true]
    intro p hp
    obtain ⟨pp, hpp, -⟩ := h.parent a np p ha hp
    rw [hpp]
    rfl
  constructor
  · rw [nicks_dropNick]
    exact h.nodup.erase a
  · intro x
    rw [nicks_dropNick, h.nodup.mem_erase_iff, h.mem, ← not_or]
    exact dropNick_eq_none.symm.not
  · -- the parent of a nick that is left is not the one that goes, which has no links
    intro x r' p hx hp
    obtain ⟨hxa, -⟩ := dropNick_eq_some.mp hx
    obtain ⟨r, hr, heq, -⟩ := hshrunk.nick x r' hx
    rw [heq] at hp
    obtain ⟨pp, hpp, hmem⟩ := h.parent x r p hr hp
    have hne : p ≠ a := by
      rintro rfl
      obtain rfl := Option.some.inj (ha.symm.trans hpp)
      rw [hlinks] at hmem
      cases hmem
    refine ⟨_, dropNick_eq_some.mpr ⟨hne, pp, hpp, rfl⟩, ?_⟩
    split
    · exact (List.mem_erase_of_ne hxa).mpr hmem
    · exact hmem
  · intro p pp' hp
    obtain ⟨-, pp, hpp, heq⟩ := dropNick_eq_some.mp hp
    obtain ⟨hnodup, hchildren⟩ := h.links p pp hpp
    have hmem : ∀ x ∈ pp'.links, x ≠ a ∧ x ∈ pp.links := by
      intro x hx
      rw [heq] at hx
      split at hx
      · exact hnodup.mem_erase_iff.mp hx
      · rename_i hne
        refine ⟨?_, hx⟩
        rintro rfl
        obtain ⟨np', hnp', hp'⟩ := hchildren x hx
        obtain rfl := Option.some.inj (ha.symm.trans hnp')
        exact hne hp'
    refine ⟨?_, fun x hx => ?_⟩
    · rw [heq]
      split
      · exact hnodup.erase a
      · exact hnodup
    · obtain ⟨hxa, hx⟩ := hmem x hx
      obtain ⟨r, hr, hpr⟩ := hchildren x hx
      refine ⟨_, dropNick_eq_some.mpr ⟨hxa, r, hr, rfl⟩, ?_⟩
      split
      · exact hpr
      · exact hpr
  · intro x r' hx hxt
    obtain ⟨hxa, -⟩ := dropNick_eq_some.mp hx
    obtain ⟨r, hr, heq, -⟩ := hshrunk.nick x r' hx
    rw [heq, contact_dropNick]
    exact h.email x r hr (List.not_mem_cons_of_ne_of_not_mem hxa hxt)
  · intro m mcp hm
    rw [contact_dropNick] at hm
    rw [users_dropNick h.nodup]
    exact h.count m mcp hm
  · rw [mails_dropNick]
    exact h.mails
  · rw [mails_dropNick, contact_dropNick]
    exact h.mem_mails

end

/-- Destroying a nick keeps the records sound, and takes nothing but what is below it. -/
theorem Sound.regnickDestroy (h : Sound t s) (hrank : Ranked rank s) (ha : s.nick a = some np)
    (ht : ∀ x ∈ t, rank a < rank x) (hfuel : (s.nicks.filter (· ∉ t)).length < n) :
    ∃ s', NickStore.regnickDestroy n s a = some s' ∧ Destroyed t s s' a := by
  induction n generalizing t s a np with
  | zero => cases hfuel
  | succ n ih =>
    have hat : a ∉ t := fun hmem => Nat.lt_irrefl _ (ht a hmem)
    obtain ⟨s₁, hs₁, hsound₁, hnick₁, hnicks₁⟩ := h.releaseMail ha hat
    have hshrunk₁ : Shrunk s s₁ := by
      refine ⟨hnicks₁ ▸ .refl _, fun x r hx => ⟨r, ?_, rfl, .refl _⟩⟩
      rw [← hnick₁]
      exact hx
    have hfuel₁ : (s₁.nicks.filter (· ∉ a :: t)).length < n := by
      have hmem : a ∈ s.nicks.filter (· ∉ t) := by
        rw [List.mem_filter, h.mem, ha]
        exact ⟨by simp, by simpa using hat⟩
      have hcons : s.nicks.filter (· ∉ a :: t) = (s.nicks.filter (· ∉ t)).erase a := by
        rw [(h.nodup.filter _).erase_eq_filter, List.filter_filter]
        refine List.filter_congr fun x _ => ?_
        by_cases hx : x = a
        · simp [hx]
        · simp [hx]
      rw [hnicks₁, hcons, List.length_erase_of_mem hmem]
      have hpos := List.length_pos_of_mem hmem
      omega
    have ha₁ : s₁.nick a = some np := by rw [hnick₁, ha]
    have hrank₁ : Ranked rank s₁ := hrank.shrunk hshrunk₁
    obtain ⟨s₂, np₂, hs₂, hsound₂, hshrunk₂, hnp₂, heq₂, hbelow₂⟩ :=
      hsound₁.destroyLinks
        (fun s' c npc hs' (hrank' : Ranked rank s') hc hlt hfuel' =>
          ih hs' hrank' hc (fun x hx => by
            rcases List.mem_cons.mp hx with rfl | hx
            · exact hlt
            · exact hlt.trans (ht x hx)) hfuel')
        hrank₁ ha₁ hfuel₁ (Nat.le_refl np.links.length)
    have hparent₂ : np₂.parent = np.parent := by rw [heq₂]
    obtain ⟨hall, hsound₃⟩ := hsound₂.dropNick hnp₂ (by rw [heq₂])
    rw [hparent₂] at hall hsound₃
    have hshrunk₃ := shrunk_dropNick s₂ a np.parent
    refine ⟨s₂.dropNick a np.parent, ?_, hsound₃, hshrunk₁.trans (hshrunk₂.trans hshrunk₃),
      dropNick_eq_none.mpr (.inl rfl), fun x hx hx' => ?_⟩
    · rw [NickStore.regnickDestroy, ha]
      change (np.email.elim (some s) s.releaseMail).bind _ = _
      rw [hs₁, Option.bind_some]
      change (NickStore.destroyLinks _ a np.links.length s₁).bind _ = _
      rw [hs₂, Option.bind_some, if_pos hall]
    · rcases dropNick_eq_none.mp hx' with rfl | hx'
      · exact .refl
      · exact (hbelow₂ x (by rwa [hnick₁]) hx').shrunk hshrunk₁

end NickStore

end Ithildin
