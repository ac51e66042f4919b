import Ithildin.Services.Format
import Ithildin.Services.References

/-!
# What is read of the database

* `Proper`: the records as the nickname service makes them;
* `copy`: the records that reading makes of some of the nicks, at addresses of their own;
* `readLine_nickLine`, `readLine_infoLine`, `readLine_accessLine`, `readLine_mailLine`: the lines;
* `dbReadFile_fileOf`: what is written is read as the copy of it.
-/

namespace Ithildin

namespace NickStore

/-! ### What the records are -/

/-- A word of a line, with room for it. -/
def Fits (n : ℕ) (w : Bytes) : Prop := w.length ≤ n ∧ blank ∉ w ∧ newline ∉ w

instance (n : ℕ) (w : Bytes) : Decidable (Fits n w) := inferInstanceAs (Decidable (_ ∧ _ ∧ _))

/-- The fields of a nick: its name and its password, the last user, host and `info`, and the masks
of its access list, each of which has come in a line of the protocol. -/
structure NickFits (np : NickRecord) : Prop where
  name : Fits NICKLEN np.name ∧ 13 ∉ np.name
  user : Fits USERLEN np.user
  host : Fits HOSTLEN np.host
  pass : Fits NICK_PASSWDLEN np.pass
  info : np.info.length ≤ GCOSLEN ∧ newline ∉ np.info
  alist : ∀ rap ∈ np.alist, rap.1.length ≤ USERLEN ∧ atSign ∉ rap.1 ∧ newline ∉ rap.1 ∧
    rap.2.length ≤ 512 ∧ newline ∉ rap.2

/-- The records of services, with one level of links: nicks and addresses are not there twice, and
their fields fit. -/
structure Proper (fold : Bytes → Bytes) (s : NickStore) : Prop where
  sound : Sound [] s
  unmarked : Unmarked s
  level : ∀ a np p pp, s.nick a = some np → np.parent = some p → s.nick p = some pp →
    pp.parent = none
  names : ∀ a b np np', s.nick a = some np → s.nick b = some np' → fold np.name = fold np'.name →
    a = b
  addresses : ∀ m m' mcp mcp', s.contact m = some mcp → s.contact m' = some mcp' →
    sameCase mcp.address mcp'.address = true → m = m'
  nick : ∀ a np, s.nick a = some np → NickFits np
  mail : ∀ m mcp, s.contact m = some mcp → Fits (HOSTLEN * 2) mcp.address

variable {fold : Bytes → Bytes} {s : NickStore} {e : Expiry} {a m : ℕ} {np : NickRecord}

/-! ### Parents are written first -/

/-- The parent of each nick stands before it. -/
def ParentsFirst (s : NickStore) (l : List ℕ) : Prop :=
  ∀ l₁ a l₂, l = l₁ ++ a :: l₂ → ∀ np p, s.nick a = some np → np.parent = some p → p ∈ l₁

theorem ParentsFirst.push {l : List ℕ} (h : ParentsFirst s l)
    (ha : ∀ np p, s.nick a = some np → np.parent = some p → p ∈ l) : ParentsFirst s (push l a) := by
  rw [NickStore.push]
  split
  · exact h
  · intro l₁ b l₂ heq np p hb hp
    rcases List.eq_nil_or_concat l₂ with rfl | ⟨l₃, c, rfl⟩
    · obtain ⟨rfl, hab⟩ := List.append_inj' heq rfl
      obtain rfl := (List.cons.inj hab).1
      exact ha np p hb hp
    · have heq : l ++ [a] = (l₁ ++ b :: l₃) ++ [c] := by rw [heq]; simp
      exact h l₁ b l₃ (List.append_inj_left' heq rfl) np p hb hp

theorem parentsFirst_writeOrder (hs : Sound [] s)
    (hlevel : ∀ a np p pp, s.nick a = some np → np.parent = some p → s.nick p = some pp →
      pp.parent = none) : ParentsFirst s s.writeOrder := by
  have hvisit : ∀ l a, ParentsFirst s l → ParentsFirst s (s.visit l a) := by
    intro l a hl
    rw [visit]
    cases ha : s.nick a with
    | none => exact hl.push fun np p hnp => by rw [ha] at hnp; cases hnp
    | some np =>
      rw [Option.bind_some]
      cases hp : np.parent with
      | none =>
        refine hl.push fun np' p hnp' hp' => ?_
        obtain rfl := Option.some.inj (ha.symm.trans hnp')
        rw [hp] at hp'
        cases hp'
      | some p =>
        obtain ⟨pp, hpp, -⟩ := hs.parent a np p ha hp
        have hparent : ParentsFirst s (NickStore.push l p) := by
          refine hl.push fun pp' q hpp' hq => ?_
          obtain rfl := Option.some.inj (hpp.symm.trans hpp')
          rw [hlevel a np p pp ha hp hpp] at hq
          cases hq
        refine hparent.push fun np' q hnp' hq => ?_
        obtain rfl := Option.some.inj (ha.symm.trans hnp')
        obtain rfl := Option.some.inj (hp.symm.trans hq)
        exact mem_push.mpr (.inr rfl)
  rw [writeOrder]
  suffices hfold : ∀ l₂ l : List ℕ, ParentsFirst s l → ParentsFirst s (l₂.foldl s.visit l) by
    refine hfold s.nicks [] ?_
    intro l₁ a l₂ heq
    simp at heq
  intro l₂
  induction l₂ with
  | nil => exact fun l hl => hl
  | cons c l₂ ih => exact fun l hl => ih (s.visit l c) (hvisit l c hl)

/-! ### The records that are read -/

/-- The access list with no carriage return at the end of a host. -/
def strippedMasks (alist : List (Bytes × Bytes)) : List (Bytes × Bytes) :=
  alist.map fun rap => (rap.1, stripped rap.2)

/-- A nick as it is read when these have been, one after the other. -/
def copyNick (s : NickStore) (l : List ℕ) (a : ℕ) (np : NickRecord) : NickRecord :=
  { np with
    last := toInt32 np.last
    regtime := toInt32 np.regtime
    intflags := np.intflags &&& ~~~NICK_IFL_NOSAVE
    info := stripped np.info
    alist := (strippedMasks np.alist).reverse
    parent := np.parent.map fun p => l.idxOf p
    email := np.email.map fun m => s.mails.idxOf m
    links := ((l.filter fun c => (s.nick c).any fun np => np.parent == some a).map
      fun c => l.idxOf c).reverse }

/-- A mail contact as it is read, for which so many nicks have been. -/
def copyMail (mcp : MailContact) (nicks : ℕ) : MailContact := ⟨mcp.address, nicks, toInt32 mcp.last⟩

/-- The nicks of a list that use a mail contact. -/
def usersIn (s : NickStore) (l : List ℕ) (m : ℕ) : List ℕ :=
  l.filter fun a => (s.nick a).any fun np => np.email == some m

/-- What has been read when these mail contacts and these nicks have. -/
def copyOf (s : NickStore) (ms l : List ℕ) : NickStore where
  nick i := l[i]?.bind fun a => (s.nick a).map (s.copyNick l a)
  nicks := (List.range l.length).reverse
  contact j := ms[j]?.bind fun m => (s.contact m).map fun mcp => copyMail mcp (s.usersIn l m).length
  mails := (List.range ms.length).reverse

/-- What has been read when all mail contacts and these nicks have. -/
def copy (s : NickStore) (l : List ℕ) : NickStore := s.copyOf s.mails l

/-! ### Lines are told apart -/

theorem readLine_text (r : Reader) (t : Bytes) :
    r.readLine fold (bytes "nick " ++ t) = r.readNick fold t ∧
      r.readLine fold (bytes "nick.info " ++ t) = r.readInfo t ∧
      r.readLine fold (bytes "nick.access " ++ t) = r.readAccess t ∧
      r.readLine fold (bytes "mail " ++ t) = r.readMail t := by
  have hmail : bytes "mail " = [109, 97, 105, 108, 32] := by decide
  have hnick : bytes "nick " = [110, 105, 99, 107, 32] := by decide
  have hinfo : bytes "nick.info " = [110, 105, 99, 107, 46, 105, 110, 102, 111, 32] := by decide
  have haccess : bytes "nick.access " = [110, 105, 99, 107, 46, 97, 99, 99, 101, 115, 115, 32] := by
    decide
  simp [Reader.readLine, hmail, hnick, hinfo, haccess]

/-! ### Mail contacts are read -/

/-- One more is read into what is found by its place in a list. -/
theorem update_getElem? {α β : Type*} (xs : List α) (x : α) (f : α → Option β) :
    Function.update (fun j => xs[j]?.bind f) xs.length (f x) = fun j => (xs ++ [x])[j]?.bind f := by
  funext j
  rcases Nat.lt_trichotomy j xs.length with hj | rfl | hj
  · rw [Function.update_of_ne (Nat.ne_of_lt hj), List.getElem?_append_left hj]
  · rw [Function.update_self, List.getElem?_concat_length, Option.bind_some]
  · rw [Function.update_of_ne (Nat.ne_of_gt hj), List.getElem?_eq_none (Nat.le_of_lt hj),
      List.getElem?_eq_none (by rw [List.length_append]; exact hj)]

theorem range_reverse_succ (n : ℕ) :
    (List.range (n + 1)).reverse = n :: (List.range n).reverse := by
  rw [List.range_succ, List.reverse_append]
  rfl

theorem stripped_mailLine (mcp : MailContact) : stripped (mailLine mcp) = mailLine mcp := by
  rw [mailLine, fprintfInt, ← List.append_assoc, stripped_append (by decide),
    stripped_of_forall fun c hc => (mem_fprintfLong hc).1]

theorem readLine_mailLine {mcp : MailContact} (hm : s.contact m = some mcp)
    (hfits : Fits (HOSTLEN * 2) mcp.address) (ms : List ℕ) (r : Reader)
    (hr : r.store = s.copyOf ms []) :
    r.readLine fold (mailLine mcp) = some ⟨s.copyOf (ms ++ [m]) [], r.np⟩ := by
  obtain ⟨hlow, hhigh⟩ := toInt32_bounds mcp.last
  have hnumber : readLong false (fprintfInt mcp.last) = (toInt32 mcp.last, []) := by
    have hread :=
      readLong_fprintfLong false (i := toInt32 mcp.last) (by omega) (by omega) (.inl rfl)
    rwa [List.append_nil] at hread
  have hcontact := update_getElem? ms m fun m => (s.contact m).map fun mcp =>
    copyMail mcp (s.usersIn [] m).length
  rw [hm, Option.map_some] at hcontact
  rw [mailLine, (readLine_text r _).2.2.2, Reader.readMail, cutField_append hfits.2.1]
  change (strcpyInto (HOSTLEN * 2 + 1) mcp.address).bind _ = _
  rw [strcpyInto_of_le hfits.1, Option.bind_some, hnumber, hr]
  change some (Reader.mk _ _) = _
  rw [Option.some.injEq, Reader.mk.injEq]
  refine ⟨?_, rfl⟩
  rw [createMailContact, copyOf, copyOf, NickStore.mk.injEq]
  refine ⟨rfl, rfl, ?_, ?_⟩
  · rw [List.length_reverse, List.length_range]
    exact hcontact
  · rw [List.length_reverse, List.length_range, List.length_append, List.length_singleton,
      range_reverse_succ]

/-- The mail contacts are read, one after the other. -/
theorem foldlM_mailLine (hp : Proper fold s) (ms₂ ms₁ : List ℕ) (h : ∀ m ∈ ms₂, s.contact m ≠ none)
    (r : Reader) (hr : r.store = s.copyOf ms₁ []) :
    ((ms₂.filterMap s.contact).map mailLine).foldlM (Reader.readLine fold) r =
      some ⟨s.copyOf (ms₁ ++ ms₂) [], r.np⟩ := by
  induction ms₂ generalizing ms₁ r with
  | nil =>
    rw [List.append_nil, ← hr]
    rfl
  | cons m ms₂ ih =>
    obtain ⟨mcp, hm⟩ := Option.ne_none_iff_exists'.mp (h m List.mem_cons_self)
    rw [List.filterMap_cons_some hm, List.map_cons, List.foldlM_cons,
      readLine_mailLine hm (hp.mail m mcp hm) ms₁ r hr]
    change List.foldlM _ _ _ = _
    rw [ih (ms₁ ++ [m]) (fun m' hm' => h m' (List.mem_cons_of_mem m hm')) _ rfl, List.append_assoc]
    rfl

/-! ### Places -/

/-- What is at a place of a list stands nowhere else. -/
theorem idxOf_eq_iff {l : List ℕ} (hl : l.Nodup) {i x y : ℕ} (hi : l[i]? = some x) (hy : y ∈ l) :
    l.idxOf y = i ↔ y = x := by
  obtain ⟨hlt, rfl⟩ := List.getElem?_eq_some_iff.mp hi
  constructor
  · rintro rfl
    exact (List.getElem_idxOf _).symm
  · rintro rfl
    exact hl.idxOf_getElem i hlt

theorem find?_eq_some_of_unique {α : Type*} {p : α → Bool} {l : List α} {x : α} (hx : x ∈ l)
    (hp : p x = true) (h : ∀ y ∈ l, p y = true → y = x) : l.find? p = some x := by
  cases hfind : l.find? p with
  | none => exact absurd hp (by simpa using List.find?_eq_none.mp hfind x hx)
  | some y => rw [h y (List.mem_of_find?_eq_some hfind) (List.find?_some hfind)]

theorem copy_nick {l : List ℕ} (h : a ∈ l) :
    (s.copy l).nick (l.idxOf a) = (s.nick a).map (s.copyNick l a) := by
  change (l[l.idxOf a]?).bind _ = _
  rw [List.getElem?_idxOf h, Option.bind_some]

theorem copy_contact (h : m ∈ s.mails) (l : List ℕ) : (s.copy l).contact (s.mails.idxOf m) =
    (s.contact m).map fun mcp => copyMail mcp (s.usersIn l m).length := by
  change (s.mails[s.mails.idxOf m]?).bind _ = _
  rw [List.getElem?_idxOf h, Option.bind_some]

/-- What has been read of a nick, by its place. -/
theorem copy_nick_eq_some {l : List ℕ} {i : ℕ} {r : NickRecord} : (s.copy l).nick i = some r ↔
    ∃ a np, l[i]? = some a ∧ s.nick a = some np ∧ r = s.copyNick l a np := by
  change (l[i]?.bind fun a => (s.nick a).map (s.copyNick l a)) = some r ↔ _
  simp only [Option.bind_eq_some_iff, Option.map_eq_some_iff]
  constructor
  · rintro ⟨a, ha, np, hnp, rfl⟩
    exact ⟨a, np, ha, hnp, rfl⟩
  · rintro ⟨a, np, ha, hnp, rfl⟩
    exact ⟨a, ha, np, hnp, rfl⟩

theorem copy_contact_eq_some {l : List ℕ} {j : ℕ} {r : MailContact} :
    (s.copy l).contact j = some r ↔ ∃ m mcp, s.mails[j]? = some m ∧ s.contact m = some mcp ∧
      r = copyMail mcp (s.usersIn l m).length := by
  change (s.mails[j]?.bind fun m => (s.contact m).map _) = some r ↔ _
  simp only [Option.bind_eq_some_iff, Option.map_eq_some_iff]
  constructor
  · rintro ⟨m, hm, mcp, hmcp, rfl⟩
    exact ⟨m, mcp, hm, hmcp, rfl⟩
  · rintro ⟨m, mcp, hm, hmcp, rfl⟩
    exact ⟨m, hm, mcp, hmcp, rfl⟩

/-- The mail contact of a nick is found by its address. -/
theorem dbFindMail_copy (hp : Proper fold s) {mcp : MailContact} (hm : s.contact m = some mcp)
    (l : List ℕ) : (s.copy l).dbFindMail mcp.address = some (s.mails.idxOf m) := by
  have hmem := hp.sound.mem_mails_of_eq_some hm
  refine find?_eq_some_of_unique ?_ ?_ fun j _ hj => ?_
  · change s.mails.idxOf m ∈ (List.range s.mails.length).reverse
    rw [List.mem_reverse, List.mem_range]
    exact List.idxOf_lt_length_iff.mpr hmem
  · rw [copy_contact hmem, hm, Option.map_some, Option.any_some]
    exact sameCase_iff.mpr rfl
  · obtain ⟨r, hr, hsame⟩ := (Option.any_eq_true _ _).mp hj
    obtain ⟨m', mcp', hm', hmcp', rfl⟩ := copy_contact_eq_some.mp hr
    have heq := hp.addresses m' m mcp' mcp hmcp' hm hsame
    exact ((idxOf_eq_iff hp.sound.mails hm' hmem).mpr heq.symm).symm

/-! ### A nick is read -/

/-- A nick whose parent has been read, and that has not been. -/
structure Unread (s : NickStore) (l : List ℕ) (a : ℕ) (np : NickRecord) : Prop where
  nick : s.nick a = some np
  nodup : l.Nodup
  fresh : a ∉ l
  parent : ∀ p, np.parent = some p → p ∈ l
  first : ParentsFirst s l

/-- The parent of a nick is found by its name. -/
theorem dbFindNick_create (hp : Proper fold s) {l : List ℕ} (h : Unread s l a np) {p : ℕ}
    {pp np' : NickRecord} (hparent : np.parent = some p) (hpp : s.nick p = some pp)
    (hname : np'.name = np.name) {t : NickStore} (ht : t.nick = (s.copy l).nick)
    (hnicks : t.nicks = (s.copy l).nicks) :
    (t.regnickCreate l.length np').dbFindNick fold pp.name = some (l.idxOf p) := by
  have hpl := h.parent p hparent
  have hlt : l.idxOf p < l.length := List.idxOf_lt_length_iff.mpr hpl
  have hmem : ∀ i, i ∈ (t.regnickCreate l.length np').nicks ↔ i = l.length ∨ i < l.length := by
    intro i
    change i ∈ l.length :: t.nicks ↔ _
    rw [hnicks, List.mem_cons]
    change _ ∨ i ∈ (List.range l.length).reverse ↔ _
    rw [List.mem_reverse, List.mem_range]
  have hnick : ∀ i, (t.regnickCreate l.length np').nick i = if i = l.length then some np' else
      (s.copy l).nick i := by
    intro i
    rw [regnickCreate, ← ht]
    dsimp only
    split
    · rename_i hi
      rw [hi, Function.update_self]
    · rename_i hi
      rw [Function.update_of_ne hi]
  refine find?_eq_some_of_unique ((hmem _).mpr (.inr hlt)) ?_ fun i _ hi => ?_
  · rw [hnick, if_neg (Nat.ne_of_lt hlt), copy_nick hpl, hpp, Option.map_some, Option.any_some]
    exact beq_self_eq_true _
  · rw [hnick] at hi
    split at hi
    · rw [Option.any_some, beq_iff_eq, hname] at hi
      obtain rfl := hp.names a p np pp h.nick hpp hi
      exact absurd hpl h.fresh
    · obtain ⟨r, hr, hsame⟩ := (Option.any_eq_true _ _).mp hi
      obtain ⟨x, npx, hx, hnpx, rfl⟩ := copy_nick_eq_some.mp hr
      have heq := hp.names x p npx pp hnpx hpp (beq_iff_eq.mp hsame)
      exact ((idxOf_eq_iff h.nodup hx hpl).mpr heq.symm).symm

theorem enroll_modifyNick {t : NickStore} {addr : ℕ} {f : NickRecord → NickRecord}
    (hself : np.parent ≠ some addr) (hf : (f np).parent = np.parent) :
    (t.enroll addr m np).modifyNick addr f = t.enroll addr m (f np) := by
  obtain ⟨hnicks, hmails, hcontact⟩ := enroll_rest t addr m np
  obtain ⟨hnicks', hmails', hcontact'⟩ := enroll_rest t addr m (f np)
  refine NickStore.ext ?_ ?_ ?_ ?_
  · funext x
    rw [enroll_nick t addr m (f np) (by rw [hf]; exact hself), hf, modifyNick]
    dsimp only
    by_cases hx : x = addr
    · rw [hx, Function.update_self, enroll_nick t addr m np hself, if_pos rfl, if_pos rfl]
      rfl
    · rw [Function.update_of_ne hx, enroll_nick t addr m np hself, if_neg hx, if_neg hx]
  · exact hnicks.trans hnicks'.symm
  · exact hcontact.trans hcontact'.symm
  · exact hmails.trans hmails'.symm

theorem regnickCreate_modifyNick (t : NickStore) (addr : ℕ) (np : NickRecord)
    (f : NickRecord → NickRecord) :
    (t.regnickCreate addr np).modifyNick addr f = t.regnickCreate addr (f np) := by
  rw [regnickCreate, regnickCreate, modifyNick]
  dsimp only
  rw [Function.update_self, Function.update_idem, Option.map_some]

/-- The first line of a nick leaves `info` and the access list empty. -/
def bareNick (s : NickStore) (l : List ℕ) (a : ℕ) (np : NickRecord) : NickRecord :=
  { s.copyNick l a np with info := [], alist := [], links := [] }

theorem stripped_nickLine {address : Bytes} {parent : Option Bytes}
    (hparent : ∀ name, parent = some name → 13 ∉ name ∧ newline ∉ name) :
    stripped (nickLine np address parent) = nickLine np address parent := by
  have hlast : ∀ c ∈ fprintfLong (np.intflags &&& ~~~NICK_IFL_NOSAVE).toInt ++
      parent.elim [] (fun name => blank :: name), isLineEnd c = false := by
    intro c hc
    rcases List.mem_append.mp hc with hc | hc
    · exact (mem_fprintfLong hc).1
    · cases hname : parent with
      | none =>
        rw [hname] at hc
        cases hc
      | some name =>
        rw [hname, Option.elim_some] at hc
        obtain ⟨hcr, hnl⟩ := hparent name hname
        rcases List.mem_cons.mp hc with rfl | hc
        · decide
        · rw [isLineEnd, Bool.or_eq_false_iff, beq_eq_false_iff_ne, beq_eq_false_iff_ne]
          constructor
          · rintro rfl
            exact hcr hc
          · rintro rfl
            exact hnl hc
  have hblank : ∀ w t : Bytes, stripped (w ++ blank :: t) = w ++ blank :: stripped t :=
    fun w t => stripped_append (by decide)
  rw [nickLine]
  have hnick : ∀ t, bytes "nick " ++ t = bytes "nick" ++ blank :: t := fun t => rfl
  rw [hnick]
  simp only [hblank, stripped_of_forall hlast]

theorem bind_eq_of_eq_some {α β : Type} {x : Option α} {y : α} (h : x = some y) (f : α → Option β) :
    (x >>= f) = f y := by
  rw [h]
  rfl

/-- The fields of the first line of a nick are read. -/
theorem cutNick_nickLine {np : NickRecord} (hfits : NickFits np) {address : Bytes}
    (haddress : blank ∉ address) {rest : Bytes} (hrest : Ends rest) :
    Reader.cutNick (np.name ++ blank :: (np.user ++ blank :: (np.host ++ blank ::
      (np.pass ++ blank :: (address ++ blank :: (fprintfInt np.last ++ blank ::
        (fprintfInt np.regtime ++ blank :: (fprintfLong np.flags.toInt ++
          blank :: (fprintfLong (np.intflags &&& ~~~NICK_IFL_NOSAVE).toInt ++ rest))))))))) =
      some ({ s.bareNick [] 0 np with parent := none, email := none }, address, rest) := by
  obtain ⟨hflow, hfhigh⟩ := bounds_toInt np.flags
  obtain ⟨hilow, hihigh⟩ := bounds_toInt (np.intflags &&& ~~~NICK_IFL_NOSAVE)
  rw [Reader.cutNick]
  refine (bind_eq_of_eq_some (cutField_append hfits.name.1.2.1 _) _).trans ?_
  refine (bind_eq_of_eq_some (cutField_append hfits.user.2.1 _) _).trans ?_
  refine (bind_eq_of_eq_some (cutField_append hfits.host.2.1 _) _).trans ?_
  refine (bind_eq_of_eq_some (cutField_append hfits.pass.2.1 _) _).trans ?_
  refine (bind_eq_of_eq_some (cutField_append haddress _) _).trans ?_
  refine (bind_eq_of_eq_some (cutNumber_int np.last _) _).trans ?_
  refine (bind_eq_of_eq_some (cutNumber_int np.regtime _) _).trans ?_
  refine (bind_eq_of_eq_some (cutNumber_append hflow hfhigh _) _).trans ?_
  dsimp only
  rw [readLong_fprintfLong true hilow hihigh hrest]
  dsimp only
  refine (bind_eq_of_eq_some (strcpyInto_of_le hfits.name.1.1) _).trans ?_
  refine (bind_eq_of_eq_some (strcpyInto_of_le hfits.user.1) _).trans ?_
  refine (bind_eq_of_eq_some (strcpyInto_of_le hfits.host.1) _).trans ?_
  refine (bind_eq_of_eq_some (strcpyInto_of_le hfits.pass.1) _).trans ?_
  rw [BitVec.ofInt_toInt, BitVec.ofInt_toInt]
  rfl

/-- The first line of a nick is read. -/
theorem readLine_nickLine (hp : Proper fold s) {l : List ℕ} (h : Unread s l a np)
    {mcp : MailContact}
    (hm : np.email = some m) (hmcp : s.contact m = some mcp) (r : Reader)
    (hr : r.store = s.copy l) :
    r.readLine fold (nickLine np mcp.address ((np.parent.bind s.nick).map fun pp => pp.name)) =
      some ⟨(s.copy l).enroll l.length (s.mails.idxOf m) (s.bareNick l a np), some l.length⟩ := by
  have hfits := hp.nick a np h.nick
  have hlength : (s.copy l).nicks.length = l.length := by
    change (List.range l.length).reverse.length = l.length
    rw [List.length_reverse, List.length_range]
  have hends : Ends (((np.parent.bind s.nick).map fun pp => pp.name).elim [] fun name =>
      blank :: name) := by
    cases (np.parent.bind s.nick).map fun pp => pp.name with
    | none => exact .inl rfl
    | some name => exact .inr ⟨name, rfl⟩
  rw [nickLine, (readLine_text r _).1, Reader.readNick, hr]
  refine (bind_eq_of_eq_some
    (cutNick_nickLine (s := s) hfits (hp.mail m mcp hmcp).2.1 hends) _).trans ?_
  refine (bind_eq_of_eq_some (dbFindMail_copy hp hmcp l) _).trans ?_
  dsimp only
  rw [hlength]
  cases hparent : np.parent with
  | none =>
    have hbare : { s.bareNick [] 0 np with parent := none, email := some (s.mails.idxOf m) } =
        s.bareNick l a np := by
      simp [bareNick, copyNick, hparent, hm]
    rw [Option.bind_none, Option.map_none, Option.elim_none, if_pos rfl, hbare, enroll]
    have hnone : (s.bareNick l a np).parent = none := by rw [← hbare]
    rw [hnone]
    rfl
  | some p =>
    obtain ⟨pp, hpp, -⟩ := hp.sound.parent a np p h.nick hparent
    have hbare : { s.bareNick [] 0 np with
        parent := some (l.idxOf p), email := some (s.mails.idxOf m) } = s.bareNick l a np := by
      simp [bareNick, copyNick, hparent, hm]
    have hsome : (s.bareNick l a np).parent = some (l.idxOf p) := by rw [← hbare]
    rw [Option.bind_some, hpp, Option.map_some, Option.elim_some, if_neg (by simp), List.tail_cons]
    have hfind : ∀ np' : NickRecord, np'.name = np.name →
        (((s.copy l).modifyMail (s.mails.idxOf m) fun mcp =>
          { mcp with nicks := mcp.nicks + 1 }).regnickCreate l.length np').dbFindNick fold pp.name =
            some (l.idxOf p) :=
      fun np' hname => dbFindNick_create hp h hparent hpp hname rfl rfl
    refine (bind_eq_of_eq_some (hfind _ (by rfl)) _).trans ?_
    rw [regnickCreate_modifyNick, hbare, enroll, hsome]
    rfl

theorem length_stripped_le (t : Bytes) : (stripped t).length ≤ t.length :=
  (List.rdropWhile_prefix _ _).length_le

/-- The line with `info` is read. -/
theorem readLine_infoLine {np : NickRecord} (hfits : NickFits np) (r : Reader) {addr : ℕ}
    (hr : r.np = some addr) :
    r.readLine fold (stripped (infoLine np)) =
      some ⟨r.store.modifyNick addr fun np' => { np' with info := stripped np.info },
        some addr⟩ := by
  have hline : stripped (infoLine np) = bytes "nick.info " ++ stripped np.info := by
    have hstart : ∀ t, bytes "nick.info " ++ t = bytes "nick.info" ++ blank :: t := fun t => rfl
    rw [infoLine, hstart, hstart, stripped_append (by decide)]
  have hroom := (length_stripped_le np.info).trans hfits.info.1
  rw [hline, (readLine_text r _).2.1, Reader.readInfo]
  refine (bind_eq_of_eq_some hr _).trans ?_
  refine (bind_eq_of_eq_some (strcpyInto_of_le hroom) _).trans ?_
  rw [← hr]
  rfl

/-- A line of the access list is read. -/
theorem readLine_accessLine {rap : Bytes × Bytes} (huser : rap.1.length ≤ USERLEN)
    (hat : atSign ∉ rap.1) (r : Reader) {addr : ℕ} (hr : r.np = some addr) :
    r.readLine fold (stripped (accessLine rap)) =
      some ⟨r.store.modifyNick addr fun np =>
        { np with alist := (rap.1, stripped rap.2) :: np.alist }, some addr⟩ := by
  have hline : stripped (accessLine rap) =
      bytes "nick.access " ++ (rap.1 ++ atSign :: stripped rap.2) := by
    rw [accessLine, ← List.append_assoc, stripped_append (by decide), List.append_assoc]
  have hentry : NickServ.accessEntry (rap.1 ++ atSign :: stripped rap.2) =
      (rap.1, stripped rap.2) := by
    rw [NickServ.accessEntry, behindByte_append hat, takeWhile_ne_append hat]
    dsimp only
    rw [List.take_of_length_le huser]
  rw [hline, (readLine_text r _).2.2.1, Reader.readAccess]
  refine (bind_eq_of_eq_some hr _).trans ?_
  rw [hentry, ← hr]
  rfl

/-- The access list is read, and turned around. -/
theorem foldlM_accessLine {t : NickStore} {addr : ℕ} {np : NickRecord}
    (hself : np.parent ≠ some addr) {alist : List (Bytes × Bytes)}
    (h : ∀ rap ∈ alist, rap.1.length ≤ USERLEN ∧ atSign ∉ rap.1) :
    ((alist.map accessLine).map stripped).foldlM (Reader.readLine fold)
        ⟨t.enroll addr m np, some addr⟩ =
      some ⟨t.enroll addr m { np with alist := (strippedMasks alist).reverse ++ np.alist },
        some addr⟩ := by
  induction alist generalizing np with
  | nil => rfl
  | cons rap alist ih =>
    obtain ⟨huser, hat⟩ := h rap List.mem_cons_self
    rw [List.map_cons, List.map_cons, List.foldlM_cons, readLine_accessLine huser hat _ rfl]
    dsimp only
    rw [enroll_modifyNick hself rfl]
    have hself' :
        { np with alist := (rap.1, stripped rap.2) :: np.alist }.parent ≠ some addr := hself
    refine (ih hself' fun rap' hrap => h rap' (List.mem_cons_of_mem _ hrap)).trans ?_
    rw [strippedMasks, strippedMasks, List.map_cons, List.reverse_cons, List.append_assoc]
    rfl

/-! ### One more nick -/

theorem copyNick_fresh {l : List ℕ} (h : Unread s l a np) :
    s.copyNick (l ++ [a]) a np = { s.bareNick l a np with
      info := stripped np.info, alist := (strippedMasks np.alist).reverse } := by
  have hnone : (l ++ [a]).filter (fun c => (s.nick c).any fun np => np.parent == some a) = [] := by
    rw [List.filter_eq_nil_iff]
    intro c hc hchild
    obtain ⟨npc, hnpc, hp⟩ := (Option.any_eq_true _ _).mp hchild
    rw [beq_iff_eq] at hp
    rcases List.mem_append.mp hc with hc | hc
    · obtain ⟨l₁, l₂, rfl⟩ := List.append_of_mem hc
      exact h.fresh (List.mem_append_left _ (h.first l₁ c l₂ rfl npc a hnpc hp))
    · obtain rfl := List.mem_singleton.mp hc
      obtain rfl := Option.some.inj (h.nick.symm.trans hnpc)
      exact h.fresh (h.parent c hp)
  have hparent :
      (np.parent.map fun p => (l ++ [a]).idxOf p) = np.parent.map fun p => l.idxOf p := by
    cases hp : np.parent with
    | none => rfl
    | some p =>
      rw [Option.map_some, Option.map_some, List.idxOf_append_of_mem (h.parent p hp)]
  rw [copyNick, hnone, hparent]
  rfl

/-- A nick that has been read before has one more linked to it if it is the parent. -/
theorem copyNick_append {l : List ℕ} (h : Unread s l a np) {x : ℕ} {npx : NickRecord} {i : ℕ}
    (hx : l[i]? = some x) (hnpx : s.nick x = some npx) :
    s.copyNick (l ++ [a]) x npx = if (np.parent.map fun p => l.idxOf p) = some i then
      { s.copyNick l x npx with links := l.length :: (s.copyNick l x npx).links }
      else s.copyNick l x npx := by
  have hxl := List.mem_of_getElem? hx
  have hparent : (npx.parent.map fun p => (l ++ [a]).idxOf p) =
      npx.parent.map fun p => l.idxOf p := by
    cases hp : npx.parent with
    | none => rfl
    | some p =>
      obtain ⟨l₁, l₂, rfl⟩ := List.append_of_mem hxl
      rw [Option.map_some, Option.map_some, List.idxOf_append_of_mem
        (List.mem_append_left _ (h.first l₁ x l₂ rfl npx p hnpx hp))]
  have hold : (l.filter fun c => (s.nick c).any fun np => np.parent == some x).map
      (fun c => (l ++ [a]).idxOf c) =
        (l.filter fun c => (s.nick c).any fun np => np.parent == some x).map
          fun c => l.idxOf c := by
    refine List.map_congr_left fun c hc => ?_
    exact List.idxOf_append_of_mem (List.mem_of_mem_filter hc)
  have hnew : (l ++ [a]).idxOf a = l.length := by
    rw [List.idxOf_append_of_notMem h.fresh, List.idxOf_cons_self, Nat.add_zero]
  have hiff : (np.parent.map fun p => l.idxOf p) = some i ↔ np.parent = some x := by
    rw [Option.map_eq_some_iff]
    constructor
    · rintro ⟨p, hp, heq⟩
      rw [hp, (idxOf_eq_iff h.nodup hx (h.parent p hp)).mp heq]
    · intro hp
      exact ⟨x, hp, (idxOf_eq_iff h.nodup hx hxl).mpr rfl⟩
  rw [copyNick, copyNick, List.filter_append, List.map_append, List.reverse_append, hparent, hold]
  by_cases hpx : np.parent = some x
  · rw [if_pos (hiff.mpr hpx), List.filter_cons_of_pos (by simp [h.nick, hpx])]
    simp [hnew]
  · rw [if_neg (fun heq => hpx (hiff.mp heq)), List.filter_cons_of_neg (by simp [h.nick, hpx])]
    simp

/-- The nick that is linked in comes behind its parent. -/
theorem copyNick_parent {l : List ℕ} (h : Unread s l a np) :
    (s.copyNick (l ++ [a]) a np).parent = (np.parent.map fun p => l.idxOf p) ∧
      (s.copyNick (l ++ [a]) a np).parent ≠ some l.length := by
  have hparent : (s.copyNick (l ++ [a]) a np).parent = np.parent.map fun p => l.idxOf p := by
    rw [copyNick_fresh h]
    rfl
  refine ⟨hparent, ?_⟩
  rw [hparent, ne_eq, Option.map_eq_some_iff]
  rintro ⟨p, hpar, heq⟩
  exact Nat.ne_of_lt (List.idxOf_lt_length_iff.mpr (h.parent p hpar)) heq

theorem enroll_copy_nick {l : List ℕ} (h : Unread s l a np) (m : ℕ) :
    ((s.copy l).enroll l.length m (s.copyNick (l ++ [a]) a np)).nick =
      (s.copy (l ++ [a])).nick := by
  obtain ⟨hparent, hself⟩ := copyNick_parent h
  funext i
  rw [enroll_nick _ _ _ _ hself, hparent]
  change _ = (l ++ [a])[i]?.bind fun x => (s.nick x).map (s.copyNick (l ++ [a]) x)
  split
  · rename_i hi
    rw [hi, List.getElem?_concat_length, Option.bind_some, h.nick, Option.map_some]
  · rename_i hi
    change (l[i]?.bind fun x => (s.nick x).map (s.copyNick l x)).map _ = _
    rcases Nat.lt_or_gt_of_ne hi with hlt | hgt
    · rw [List.getElem?_append_left hlt]
      have hx := List.getElem?_eq_getElem hlt
      rw [hx, Option.bind_some, Option.bind_some]
      cases hnpx : s.nick l[i] with
      | none => rfl
      | some npx =>
        rw [Option.map_some, Option.map_some, Option.map_some, copyNick_append h hx hnpx]
    · rw [List.getElem?_eq_none (Nat.le_of_lt hgt),
        List.getElem?_eq_none (by rw [List.length_append]; exact hgt)]
      rfl

/-- Only the mail contact of the nick has one more user. -/
theorem usersIn_append {l : List ℕ} (ha : s.nick a = some np) (hm : np.email = some m) (m' : ℕ) :
    s.usersIn (l ++ [a]) m' = s.usersIn l m' ++ if m' = m then [a] else [] := by
  rw [usersIn, usersIn, List.filter_append]
  congr 1
  by_cases heq : m' = m
  · simp [heq, ha, hm]
  · simp [heq, ha, hm, Ne.symm heq]

/-- What has been read, with one more nick. -/
theorem enroll_copy (hp : Proper fold s) {l : List ℕ} (h : Unread s l a np)
    (hm : np.email = some m) :
    (s.copy l).enroll l.length (s.mails.idxOf m) (s.copyNick (l ++ [a]) a np) =
      s.copy (l ++ [a]) := by
  obtain ⟨m', mcp, hm', hmcp⟩ := hp.sound.email a np h.nick List.not_mem_nil
  obtain rfl := Option.some.inj (hm.symm.trans hm')
  have hmem := hp.sound.mem_mails_of_eq_some hmcp
  have hmore := usersIn_append (l := l) h.nick hm
  obtain ⟨hnicks, hmails, hcontact⟩ :=
    enroll_rest (s.copy l) l.length (s.mails.idxOf m) (s.copyNick (l ++ [a]) a np)
  refine NickStore.ext (enroll_copy_nick h _) ?_ ?_ ?_
  · rw [hnicks]
    change l.length :: (List.range l.length).reverse = (List.range (l ++ [a]).length).reverse
    rw [List.length_append, List.length_singleton, range_reverse_succ]
  · rw [hcontact]
    funext j
    by_cases hj : j = s.mails.idxOf m
    · rw [hj, Function.update_self, copy_contact hmem, copy_contact hmem, hmcp]
      rw [Option.map_some, Option.map_some, Option.map_some, hmore, if_pos rfl, List.length_append]
      rfl
    · rw [Function.update_of_ne hj]
      change (s.mails[j]?.bind fun m => (s.contact m).map _) =
        s.mails[j]?.bind fun m => (s.contact m).map _
      cases hm'' : s.mails[j]? with
      | none => rfl
      | some m' =>
        have hne : m' ≠ m := by
          rintro rfl
          exact hj ((idxOf_eq_iff hp.sound.mails hm'' hmem).mpr rfl).symm
        rw [Option.bind_some, Option.bind_some, hmore, if_neg hne, List.append_nil]
  · exact hmails

/-! ### All nicks are read -/

/-- The name of the parent. -/
def parentName (s : NickStore) (np : NickRecord) : Option Bytes :=
  (np.parent.bind s.nick).map fun pp => pp.name

/-- The lines of a nick. -/
def linesOf (s : NickStore) (a : ℕ) : List Bytes :=
  ((s.nick a).bind fun np => (np.email.bind s.contact).map fun mcp =>
    nickLine np mcp.address (s.parentName np) :: infoLine np :: np.alist.map accessLine).getD []

theorem linesOf_eq {mcp : MailContact} (ha : s.nick a = some np) (hm : np.email = some m)
    (hmcp : s.contact m = some mcp) : s.linesOf a =
      nickLine np mcp.address (s.parentName np) :: infoLine np :: np.alist.map accessLine := by
  rw [linesOf, ha, Option.bind_some, hm, Option.bind_some, hmcp]
  rfl

theorem nickText_eq (hs : Sound [] s) (ha : s.nick a = some np) :
    s.nickText np = some ((s.linesOf a).flatMap endLine) := by
  obtain ⟨m, mcp, hm, hmcp⟩ := hs.email a np ha List.not_mem_nil
  rw [linesOf_eq ha hm hmcp, nickText, hm]
  refine (bind_eq_of_eq_some rfl _).trans ?_
  refine (bind_eq_of_eq_some hmcp _).trans ?_
  rw [parentName]
  cases hp : np.parent with
  | none => rfl
  | some p =>
    obtain ⟨pp, hpp, -⟩ := hs.parent a np p ha hp
    dsimp only
    rw [Option.bind_some, hpp]
    rfl

/-- The lines of the file. -/
theorem fileOf_eq (hs : Sound [] s) {l : List ℕ} (hl : ∀ a ∈ l, s.nick a ≠ none) :
    s.fileOf l = ((s.mails.filterMap s.contact).map mailLine ++ l.flatMap s.linesOf).flatMap
      endLine := by
  rw [fileOf, List.flatMap_append, List.flatMap_assoc]
  congr 1
  refine List.flatMap_congr fun a ha => ?_
  obtain ⟨np, hnp⟩ := Option.ne_none_iff_exists'.mp (hl a ha)
  rw [hnp, Option.bind_some, nickText_eq hs hnp, Option.getD_some]

theorem Proper.name_of_parent (hp : Proper fold s) {name : Bytes}
    (h : s.parentName np = some name) :
    Fits NICKLEN name ∧ 13 ∉ name := by
  obtain ⟨pp, hpp, rfl⟩ := Option.map_eq_some_iff.mp h
  obtain ⟨p, -, hpp⟩ := Option.bind_eq_some_iff.mp hpp
  exact (hp.nick p pp hpp).name

/-- The lines of a nick are read. -/
theorem foldlM_linesOf (hp : Proper fold s) {l : List ℕ} (h : Unread s l a np) (r : Reader)
    (hr : r.store = s.copy l) : ((s.linesOf a).map stripped).foldlM (Reader.readLine fold) r =
      some ⟨s.copy (l ++ [a]), some l.length⟩ := by
  obtain ⟨m, mcp, hm, hmcp⟩ := hp.sound.email a np h.nick List.not_mem_nil
  have hfits := hp.nick a np h.nick
  have hself : (s.bareNick l a np).parent ≠ some l.length := by
    change (np.parent.map fun p => l.idxOf p) ≠ _
    rw [ne_eq, Option.map_eq_some_iff]
    rintro ⟨p, hpar, heq⟩
    exact Nat.ne_of_lt (List.idxOf_lt_length_iff.mpr (h.parent p hpar)) heq
  have hname : ∀ name, s.parentName np = some name → 13 ∉ name ∧ newline ∉ name :=
    fun name hname => ⟨(hp.name_of_parent hname).2, (hp.name_of_parent hname).1.2.2⟩
  rw [linesOf_eq h.nick hm hmcp, List.map_cons, List.map_cons, stripped_nickLine hname,
    List.foldlM_cons]
  refine (bind_eq_of_eq_some (readLine_nickLine hp h hm hmcp r hr) _).trans ?_
  rw [List.foldlM_cons]
  refine (bind_eq_of_eq_some (readLine_infoLine hfits _ rfl) _).trans ?_
  dsimp only
  rw [enroll_modifyNick hself rfl]
  have hself' : { s.bareNick l a np with info := stripped np.info }.parent ≠ some l.length := hself
  refine (foldlM_accessLine hself' fun rap hrap => ?_).trans ?_
  · exact ⟨(hfits.alist rap hrap).1, (hfits.alist rap hrap).2.1⟩
  · rw [← enroll_copy hp h hm, copyNick_fresh h]
    change some (Reader.mk ((s.copy l).enroll _ _ { s.bareNick l a np with
      info := stripped np.info, alist := (strippedMasks np.alist).reverse ++ [] }) _) = _
    rw [List.append_nil]

/-- The nicks are read, one after the other. -/
theorem foldlM_flatMap_linesOf (hp : Proper fold s) {l₂ l₁ : List ℕ} (hnodup : (l₁ ++ l₂).Nodup)
    (hfirst : ParentsFirst s (l₁ ++ l₂)) (hl : ∀ a ∈ l₂, s.nick a ≠ none) (r : Reader)
    (hr : r.store = s.copy l₁) :
    ∃ r', ((l₂.flatMap s.linesOf).map stripped).foldlM (Reader.readLine fold) r = some r' ∧
      r'.store = s.copy (l₁ ++ l₂) := by
  induction l₂ generalizing l₁ r with
  | nil => exact ⟨r, rfl, by rw [hr, List.append_nil]⟩
  | cons a l₂ ih =>
    obtain ⟨np, hnp⟩ := Option.ne_none_iff_exists'.mp (hl a List.mem_cons_self)
    have hunread : Unread s l₁ a np :=
      { nick := hnp
        nodup := hnodup.of_append_left
        fresh := fun ha => List.disjoint_of_nodup_append hnodup ha List.mem_cons_self
        parent := fun p hpar => hfirst l₁ a l₂ rfl np p hnp hpar
        first := fun l₃ b l₄ heq => hfirst l₃ b (l₄ ++ a :: l₂) (by rw [heq]; simp) }
    have hassoc : l₁ ++ a :: l₂ = (l₁ ++ [a]) ++ l₂ := by simp
    rw [List.flatMap_cons, List.map_append, List.foldlM_append, foldlM_linesOf hp hunread r hr]
    rw [hassoc] at hnodup hfirst ⊢
    exact ih hnodup hfirst (fun b hb => hl b (List.mem_cons_of_mem a hb)) _ rfl

/-! ### The lines fit -/

theorem notMem_field {w t : Bytes} (hw : newline ∉ w) (ht : newline ∉ t) :
    newline ∉ w ++ blank :: t := by
  rw [List.mem_append, List.mem_cons, not_or, not_or]
  exact ⟨hw, by decide, ht⟩

theorem newline_notMem_fprintfLong (i : ℤ) : newline ∉ fprintfLong i :=
  fun h => (mem_fprintfLong h).2.2 rfl

theorem nickLine_fits {address : Bytes} {parent : Option Bytes} (hfits : NickFits np)
    (haddress : Fits (HOSTLEN * 2) address)
    (hparent : ∀ name, parent = some name → Fits NICKLEN name) :
    newline ∉ nickLine np address parent ∧ (nickLine np address parent).length + 1 < 16384 := by
  have hlast : newline ∉ parent.elim [] (fun name => blank :: name) ∧
      (parent.elim [] fun name => blank :: name).length ≤ NICKLEN + 1 := by
    cases hname : parent with
    | none => exact ⟨List.not_mem_nil, Nat.zero_le _⟩
    | some name =>
      obtain ⟨hlen, -, hnl⟩ := hparent name hname
      rw [Option.elim_some, List.mem_cons, not_or, List.length_cons]
      exact ⟨⟨by decide, hnl⟩, Nat.succ_le_succ hlen⟩
  have hstart : newline ∉ bytes "nick" := by decide
  constructor
  · have hmore : newline ∉ fprintfLong (np.intflags &&& ~~~NICK_IFL_NOSAVE).toInt ++
        parent.elim [] fun name => blank :: name := by
      rw [List.mem_append, not_or]
      exact ⟨newline_notMem_fprintfLong _, hlast.1⟩
    exact notMem_field hstart <| notMem_field hfits.name.1.2.2 <| notMem_field hfits.user.2.2 <|
      notMem_field hfits.host.2.2 <| notMem_field hfits.pass.2.2 <| notMem_field haddress.2.2 <|
      notMem_field (newline_notMem_fprintfLong _) <| notMem_field (newline_notMem_fprintfLong _) <|
      notMem_field (newline_notMem_fprintfLong _) hmore
  · have hnick : (bytes "nick ").length = 5 := by decide
    have hname := hfits.name.1.1
    have huser := hfits.user.1
    have hhost := hfits.host.1
    have hpass := hfits.pass.1
    have haddr := haddress.1
    have h₁ := length_fprintfLong_le (toInt32 np.last)
    have h₂ := length_fprintfLong_le (toInt32 np.regtime)
    have h₃ := length_fprintfLong_le np.flags.toInt
    have h₄ := length_fprintfLong_le (np.intflags &&& ~~~NICK_IFL_NOSAVE).toInt
    have h₅ := hlast.2
    simp only [NICKLEN, USERLEN, HOSTLEN, NICK_PASSWDLEN] at hname huser hhost hpass haddr h₅
    simp only [nickLine, fprintfInt, List.length_append, List.length_cons, hnick]
    omega

theorem linesOf_fits (hp : Proper fold s) {line : Bytes} (h : line ∈ s.linesOf a) :
    newline ∉ line ∧ line.length + 1 < 16384 := by
  cases ha : s.nick a with
  | none =>
    rw [linesOf, ha] at h
    cases h
  | some np =>
    obtain ⟨m, mcp, hm, hmcp⟩ := hp.sound.email a np ha List.not_mem_nil
    have hfits := hp.nick a np ha
    rw [linesOf_eq ha hm hmcp] at h
    rcases List.mem_cons.mp h with rfl | h
    · exact nickLine_fits hfits (hp.mail m mcp hmcp) fun name hname => (hp.name_of_parent hname).1
    rcases List.mem_cons.mp h with rfl | h
    · have hstart : newline ∉ bytes "nick.info " ∧ (bytes "nick.info ").length = 10 := by decide
      obtain ⟨hlen, hnl⟩ := hfits.info
      rw [infoLine, List.mem_append, not_or, List.length_append, hstart.2]
      refine ⟨⟨hstart.1, hnl⟩, ?_⟩
      simp only [GCOSLEN] at hlen
      omega
    · obtain ⟨rap, hrap, rfl⟩ := List.mem_map.mp h
      have hstart : newline ∉ bytes "nick.access " ∧ (bytes "nick.access ").length = 12 := by decide
      obtain ⟨huser, -, hnu, hhost, hnh⟩ := hfits.alist rap hrap
      rw [accessLine, List.mem_append, List.mem_append, List.mem_cons, not_or, not_or, not_or,
        List.length_append, List.length_append, List.length_cons, hstart.2]
      refine ⟨⟨hstart.1, hnu, by decide, hnh⟩, ?_⟩
      simp only [USERLEN] at huser
      omega

theorem mailLine_fits {mcp : MailContact} (hfits : Fits (HOSTLEN * 2) mcp.address) :
    newline ∉ mailLine mcp ∧ (mailLine mcp).length + 1 < 16384 := by
  have hstart : newline ∉ bytes "mail " ∧ (bytes "mail ").length = 5 := by decide
  obtain ⟨hlen, -, hnl⟩ := hfits
  have hnumber := length_fprintfLong_le (toInt32 mcp.last)
  rw [mailLine, fprintfInt, List.mem_append, not_or, List.length_append, List.length_append,
    List.length_cons, hstart.2]
  refine ⟨⟨hstart.1, notMem_field hnl (newline_notMem_fprintfLong _)⟩, ?_⟩
  simp only [HOSTLEN] at hlen
  omega

theorem length_le_flatMap_endLine (lines : List Bytes) :
    lines.length ≤ (lines.flatMap endLine).length := by
  induction lines with
  | nil => exact Nat.le_refl _
  | cons line lines ih =>
    rw [List.flatMap_cons, List.length_append, List.length_cons, endLine, List.length_append,
      List.length_singleton]
    omega

/-- What is written is read as the copy of it. -/
theorem dbReadFile_fileOf (hp : Proper fold s) :
    dbReadFile fold (s.fileOf s.writeOrder) = some (s.copy s.writeOrder) := by
  obtain ⟨hnodup, hmem⟩ := writeOrder_spec hp.sound
  have halive : ∀ a ∈ s.writeOrder, s.nick a ≠ none :=
    fun a ha => (hp.sound.mem a).mp ((hmem a).mp ha)
  have hmails : ∀ m ∈ s.mails, s.contact m ≠ none := fun m hm => (hp.sound.mem_mails m).mp hm
  rw [dbReadFile, fileOf_eq hp.sound halive, fileLines_flatMap _ (length_le_flatMap_endLine _)]
  · have hstart : Reader.start.store = s.copyOf [] [] := rfl
    have hstrip : ((s.mails.filterMap s.contact).map mailLine).map stripped =
        (s.mails.filterMap s.contact).map mailLine := by
      rw [List.map_map]
      exact List.map_congr_left fun mcp _ => stripped_mailLine mcp
    have hnodup' : ([] ++ s.writeOrder).Nodup := hnodup
    obtain ⟨r, hr, hstore⟩ := foldlM_flatMap_linesOf hp hnodup'
      (parentsFirst_writeOrder hp.sound hp.level) halive ⟨s.copyOf s.mails [], none⟩ rfl
    rw [List.map_append, hstrip, List.foldlM_append,
      foldlM_mailLine hp s.mails [] hmails Reader.start hstart]
    refine (congrArg (Option.map Reader.store) hr).trans ?_
    rw [Option.map_some, hstore]
    rfl
  · intro line hline
    rcases List.mem_append.mp hline with hline | hline
    · obtain ⟨mcp, hmcp, rfl⟩ := List.mem_map.mp hline
      obtain ⟨m, -, hm⟩ := List.mem_filterMap.mp hmcp
      exact mailLine_fits (hp.mail m mcp hm)
    · obtain ⟨a, -, hline⟩ := List.mem_flatMap.mp hline
      exact linesOf_fits hp hline

end NickStore

end Ithildin
