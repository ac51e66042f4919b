import Ithildin.Services.Copy
import Mathlib.Algebra.Order.BigOperators.Group.Multiset
import Mathlib.Algebra.Order.Group.Nat

/-!
# The database is written and read

* `Restored`: what is read is what was written, but for the order and the bits that are not saved;
* `copy_sound`, `nickViews_copy`, `contacts_copy`: the copy that is read;
* `restored_iff`: it is what was written if and only if no text ends in a carriage return and the
  times are ints.
-/

namespace Ithildin.NickStore

variable {fold : Bytes → Bytes} {s : NickStore} {e : Expiry} {a m : ℕ} {np : NickRecord}

/-! ### Stores with the same contents -/

/-- A nick, with names and an address in place of pointers, and no order where there is none. -/
@[ext] structure NickView where
  name : Bytes
  user : Bytes
  host : Bytes
  pass : Bytes
  info : Bytes
  address : Option Bytes
  last : ℤ
  regtime : ℤ
  flags : BitVec 64
  intflags : BitVec 64
  alist : Multiset (Bytes × Bytes)
  parent : Option Bytes
  links : Multiset Bytes

/-- The names of some nicks. -/
def namesOf (s : NickStore) (l : List ℕ) : List Bytes :=
  l.filterMap fun a => (s.nick a).map fun np => np.name

/-- How a nick looks. -/
def view (s : NickStore) (np : NickRecord) : NickView where
  name := np.name
  user := np.user
  host := np.host
  pass := np.pass
  info := np.info
  address := (np.email.bind s.contact).map fun mcp => mcp.address
  last := np.last
  regtime := np.regtime
  flags := np.flags
  intflags := np.intflags
  alist := np.alist
  parent := s.parentName np
  links := s.namesOf np.links

/-- The nicks of a store. -/
def nickViews (s : NickStore) : Multiset NickView :=
  s.nicks.filterMap fun a => (s.nick a).map s.view

/-- The mail contacts of a store. -/
def contacts (s : NickStore) : Multiset MailContact := s.mails.filterMap s.contact

/-- A nick with the bits that are saved. -/
def NickView.saved (v : NickView) : NickView :=
  { v with intflags := v.intflags &&& ~~~NICK_IFL_NOSAVE }

/-- What is written is read: the nicks with the bits that are saved, and the mail contacts, each of
which counts the nicks that use it. -/
def Restored (fold : Bytes → Bytes) (e : Expiry) (s : NickStore) : Prop :=
  ∃ s' file t, dbWriteFile e s = some (s', file) ∧ dbReadFile fold file = some t ∧ Sound [] t ∧
    t.nickViews = s.nickViews.map NickView.saved ∧ t.contacts = s.contacts

/-- A number that an `int` holds. -/
def IsInt (t : ℤ) : Prop := -2147483648 ≤ t ∧ t < 2147483648

/-- The texts at the ends of lines do not end in a carriage return, and the times are ints. -/
structure Survives (s : NickStore) : Prop where
  info : ∀ a np, s.nick a = some np → np.info.getLast? ≠ some 13
  alist : ∀ a np, s.nick a = some np → ∀ rap ∈ np.alist, rap.2.getLast? ≠ some 13
  times : ∀ a np, s.nick a = some np → IsInt np.last ∧ IsInt np.regtime
  mail : ∀ m mcp, s.contact m = some mcp → IsInt mcp.last

/-! ### The copy -/

/-- All nicks stand in the list once. -/
structure Complete (s : NickStore) (l : List ℕ) : Prop where
  nodup : l.Nodup
  mem : ∀ a, a ∈ l ↔ s.nick a ≠ none

theorem complete_writeOrder (hs : Sound [] s) : Complete s s.writeOrder := by
  obtain ⟨hnodup, hmem⟩ := writeOrder_spec hs
  exact ⟨hnodup, fun a => (hmem a).trans (hs.mem a)⟩

variable {l : List ℕ}

theorem Complete.perm (hl : Complete s l) (hs : Sound [] s) : l.Perm s.nicks :=
  (List.perm_ext_iff_of_nodup hl.nodup hs.nodup).mpr fun a => (hl.mem a).trans (hs.mem a).symm

/-- The place of a nick. -/
theorem Complete.copy_nick (hl : Complete s l) (ha : s.nick a = some np) :
    l[l.idxOf a]? = some a ∧ (s.copy l).nick (l.idxOf a) = some (s.copyNick l a np) := by
  have hmem : a ∈ l := (hl.mem a).mpr (by rw [ha]; simp)
  rw [NickStore.copy_nick hmem, ha]
  exact ⟨List.getElem?_idxOf hmem, rfl⟩

/-- The nicks that are linked to one. -/
def childrenIn (s : NickStore) (l : List ℕ) (a : ℕ) : List ℕ :=
  l.filter fun c => (s.nick c).any fun np => np.parent == some a

theorem mem_childrenIn {c : ℕ} :
    c ∈ s.childrenIn l a ↔ c ∈ l ∧ ∃ npc, s.nick c = some npc ∧ npc.parent = some a := by
  rw [childrenIn, List.mem_filter, Option.any_eq_true]
  simp only [beq_iff_eq]

theorem filter_range_getElem? (l : List ℕ) (p : ℕ → Bool) :
    ((List.range l.length).filter fun i => l[i]?.any p).length = (l.filter p).length := by
  induction l using List.reverseRecOn with
  | nil => rfl
  | append_singleton l x ih =>
    have hold : (List.range l.length).filter (fun i => (l ++ [x])[i]?.any p) =
        (List.range l.length).filter fun i => l[i]?.any p := by
      refine List.filter_congr fun i hi => ?_
      rw [List.getElem?_append_left (List.mem_range.mp hi)]
    rw [List.length_append, List.length_singleton, List.range_succ, List.filter_append,
      List.filter_append, List.length_append, List.length_append, hold, ih, List.filter_singleton,
      List.filter_singleton, List.getElem?_concat_length, Option.any_some]
    cases p x <;> rfl

theorem filterMap_range_getElem? {β : Type*} (l : List ℕ) (f : ℕ → Option β) :
    (List.range l.length).filterMap (fun i => l[i]?.bind f) = l.filterMap f := by
  induction l using List.reverseRecOn with
  | nil => rfl
  | append_singleton l x ih =>
    have hold : (List.range l.length).filterMap (fun i => (l ++ [x])[i]?.bind f) =
        (List.range l.length).filterMap fun i => l[i]?.bind f := by
      refine List.filterMap_congr fun i hi => ?_
      rw [List.getElem?_append_left (List.mem_range.mp hi)]
    rw [List.length_append, List.length_singleton, List.range_succ, List.filterMap_append,
      List.filterMap_append, hold, ih]
    have hlast : (l ++ [x])[l.length]?.bind f = f x := by
      rw [List.getElem?_concat_length, Option.bind_some]
    simp only [List.filterMap_cons, hlast]
    rfl

/-- The places of a list are those at which something is found. -/
theorem mem_reverse_range_iff {β : Type*} {l : List ℕ} {f : ℕ → Option β}
    (hf : ∀ a ∈ l, f a ≠ none) (i : ℕ) :
    i ∈ (List.range l.length).reverse ↔ l[i]?.bind f ≠ none := by
  rw [List.mem_reverse, List.mem_range]
  by_cases hi : i < l.length
  · rw [List.getElem?_eq_getElem hi, Option.bind_some]
    exact iff_of_true hi (hf _ (List.getElem_mem hi))
  · rw [List.getElem?_eq_none (Nat.not_lt.mp hi)]
    simp [hi]

/-- The nicks that are read are all that a mail contact has. -/
theorem length_usersIn (hs : Sound [] s) (hl : Complete s l) (m : ℕ) :
    (s.users [] m).length = (s.usersIn l m).length := by
  have hperm := (hl.perm hs).filter fun a => (s.nick a).any fun np => np.email == some m
  rw [usersIn, hperm.length_eq, users]
  simp

/-- A mail contact that is read has as many nicks. -/
theorem length_users_copy (hs : Sound [] s) (l : List ℕ) {j m : ℕ} (hm : s.mails[j]? = some m) :
    ((s.copy l).users [] j).length = (s.usersIn l m).length := by
  have hml := List.mem_of_getElem? hm
  rw [users, usersIn, ← filter_range_getElem? l]
  change ((List.range l.length).reverse.filter _).length = _
  rw [List.filter_reverse, List.length_reverse]
  congr 1
  refine List.filter_congr fun i hi => ?_
  have hlt := List.mem_range.mp hi
  rw [List.getElem?_eq_getElem hlt, Option.any_some]
  change (decide (i ∉ []) && (l[i]?.bind _).any _) = _
  rw [List.getElem?_eq_getElem hlt, Option.bind_some]
  cases hnp : s.nick l[i] with
  | none => simp
  | some np =>
    rw [Option.map_some, Option.any_some, Option.any_some]
    change (decide (i ∉ []) && (np.email.map fun m => s.mails.idxOf m) == some j) = _
    obtain ⟨m', mcp', hm', hmcp'⟩ := hs.email _ np hnp List.not_mem_nil
    have hml' := hs.mem_mails_of_eq_some hmcp'
    have hiff := idxOf_eq_iff hs.mails hm hml'
    rw [hm', Option.map_some]
    simp [hiff]

/-- The records that are read refer to each other as they should. -/
theorem copy_sound (hs : Sound [] s) (hl : Complete s l) : Sound [] (s.copy l) where
  nodup := List.nodup_reverse.mpr List.nodup_range
  mem i := by
    refine mem_reverse_range_iff (fun a ha => ?_) i
    rw [ne_eq, Option.map_eq_none_iff]
    exact (hl.mem a).mp ha
  parent i r q hi hq := by
    obtain ⟨a, np, ha, hnp, rfl⟩ := copy_nick_eq_some.mp hi
    obtain ⟨p, hp, rfl⟩ := Option.map_eq_some_iff.mp hq
    obtain ⟨pp, hpp, -⟩ := hs.parent a np p hnp hp
    refine ⟨_, (hl.copy_nick hpp).2, ?_⟩
    change i ∈ ((s.childrenIn l p).map fun c => l.idxOf c).reverse
    have hal := List.mem_of_getElem? ha
    rw [List.mem_reverse, List.mem_map]
    exact ⟨a, mem_childrenIn.mpr ⟨hal, np, hnp, hp⟩, (idxOf_eq_iff hl.nodup ha hal).mpr rfl⟩
  links i r hi := by
    obtain ⟨p, pp, hp, hpp, rfl⟩ := copy_nick_eq_some.mp hi
    change ((s.childrenIn l p).map fun c => l.idxOf c).reverse.Nodup ∧
      ∀ x ∈ ((s.childrenIn l p).map fun c => l.idxOf c).reverse, _
    have hpl := List.mem_of_getElem? hp
    constructor
    · rw [List.nodup_reverse]
      refine (hl.nodup.filter _).map_on fun c hc d hd heq => ?_
      exact (List.idxOf_inj (List.mem_of_mem_filter hc)).mp heq
    · intro x hx
      rw [List.mem_reverse, List.mem_map] at hx
      obtain ⟨c, hc, rfl⟩ := hx
      obtain ⟨-, npc, hnpc, hpar⟩ := mem_childrenIn.mp hc
      refine ⟨_, (hl.copy_nick hnpc).2, ?_⟩
      change (npc.parent.map fun p => l.idxOf p) = some i
      rw [hpar, Option.map_some, (idxOf_eq_iff hl.nodup hp hpl).mpr rfl]
  email i r hi _ := by
    obtain ⟨a, np, -, hnp, rfl⟩ := copy_nick_eq_some.mp hi
    obtain ⟨m, mcp, hm, hmcp⟩ := hs.email a np hnp List.not_mem_nil
    have hmem := hs.mem_mails_of_eq_some hmcp
    refine ⟨s.mails.idxOf m, _, ?_, (copy_contact hmem l).trans (by rw [hmcp]; rfl)⟩
    change (np.email.map fun m => s.mails.idxOf m) = _
    rw [hm, Option.map_some]
  count j r hj := by
    obtain ⟨m, mcp, hm, hmcp, rfl⟩ := copy_contact_eq_some.mp hj
    obtain ⟨hcount, hpos⟩ := hs.count m mcp hmcp
    have hml := List.mem_of_getElem? hm
    have husers := length_usersIn hs hl m
    have hcopy := length_users_copy hs l hm
    change ((s.usersIn l m).length : ℤ) = _ ∧ 0 < ((s.usersIn l m).length : ℤ)
    rw [hcopy]
    omega
  mails := List.nodup_reverse.mpr List.nodup_range
  mem_mails j := by
    refine mem_reverse_range_iff (fun m hm => ?_) j
    rw [ne_eq, Option.map_eq_none_iff]
    exact (hs.mem_mails m).mp hm

/-- A nick as it is read. -/
def NickView.read (v : NickView) : NickView :=
  { v.saved with
    last := toInt32 v.last
    regtime := toInt32 v.regtime
    info := stripped v.info
    alist := v.alist.map fun rap => (rap.1, stripped rap.2) }

/-- A mail contact as it is read. -/
def readContact (mcp : MailContact) : MailContact := { mcp with last := toInt32 mcp.last }

theorem view_copyNick (hs : Sound [] s) (hl : Complete s l) (ha : s.nick a = some np) :
    (s.copy l).view (s.copyNick l a np) = (s.view np).read := by
  have haddress : (((np.email.map fun m => s.mails.idxOf m).bind (s.copy l).contact).map
      fun mcp => mcp.address) = (np.email.bind s.contact).map fun mcp => mcp.address := by
    obtain ⟨m, mcp, hm, hmcp⟩ := hs.email a np ha List.not_mem_nil
    have hmem := hs.mem_mails_of_eq_some hmcp
    rw [hm, Option.map_some, Option.bind_some, Option.bind_some, copy_contact hmem, hmcp]
    rfl
  have hparent : (((np.parent.map fun p => l.idxOf p).bind (s.copy l).nick).map
      fun pp => pp.name) = (np.parent.bind s.nick).map fun pp => pp.name := by
    cases hp : np.parent with
    | none => rfl
    | some p =>
      obtain ⟨pp, hpp, -⟩ := hs.parent a np p ha hp
      rw [Option.map_some, Option.bind_some, Option.bind_some, (hl.copy_nick hpp).2, hpp]
      rfl
  have hlinks : ((s.copy l).namesOf ((s.childrenIn l a).map fun c => l.idxOf c).reverse).Perm
      (s.namesOf np.links) := by
    obtain ⟨hnodup, hchildren⟩ := hs.links a np ha
    have hperm : (s.childrenIn l a).Perm np.links := by
      refine (List.perm_ext_iff_of_nodup (hl.nodup.filter _) hnodup).mpr fun c => ?_
      rw [← childrenIn, mem_childrenIn]
      constructor
      · rintro ⟨-, npc, hnpc, hpar⟩
        obtain ⟨np', hnp', hmem⟩ := hs.parent c npc a hnpc hpar
        obtain rfl := Option.some.inj (ha.symm.trans hnp')
        exact hmem
      · intro hc
        obtain ⟨npc, hnpc, hpar⟩ := hchildren c hc
        exact ⟨(hl.mem c).mpr (by rw [hnpc]; simp), npc, hnpc, hpar⟩
    have hnames : (s.copy l).namesOf ((s.childrenIn l a).map fun c => l.idxOf c) =
        s.namesOf (s.childrenIn l a) := by
      rw [namesOf, namesOf, List.filterMap_map]
      refine List.filterMap_congr fun c hc => ?_
      obtain ⟨-, npc, hnpc, -⟩ := mem_childrenIn.mp hc
      rw [Function.comp_apply, (hl.copy_nick hnpc).2, hnpc]
      rfl
    refine ((List.reverse_perm _).filterMap _).trans ?_
    change ((s.copy l).namesOf _).Perm _
    rw [hnames]
    exact hperm.filterMap _
  have halist : (((strippedMasks np.alist).reverse : List (Bytes × Bytes)) :
      Multiset (Bytes × Bytes)) =
        Multiset.map (fun rap : Bytes × Bytes => (rap.1, stripped rap.2)) np.alist := by
    rw [Multiset.coe_reverse, Multiset.map_coe]
    rfl
  exact NickView.ext rfl rfl rfl rfl rfl haddress rfl rfl rfl rfl halist hparent
    (Multiset.coe_eq_coe.mpr hlinks)

theorem nickViews_copy (hs : Sound [] s) (hl : Complete s l) :
    (s.copy l).nickViews = s.nickViews.map NickView.read := by
  have hplaces :
      (List.range l.length).filterMap (fun i => ((s.copy l).nick i).map (s.copy l).view) =
      l.filterMap fun a => ((s.nick a).map s.view).map NickView.read := by
    rw [← filterMap_range_getElem? l]
    refine List.filterMap_congr fun i _ => ?_
    change (l[i]?.bind _).map _ = _
    cases l[i]? with
    | none => rfl
    | some a =>
      rw [Option.bind_some, Option.bind_some]
      cases hnp : s.nick a with
      | none => rfl
      | some np =>
        rw [Option.map_some, Option.map_some, Option.map_some, Option.map_some,
          view_copyNick hs hl hnp]
  rw [nickViews, nickViews, Multiset.map_coe, Multiset.coe_eq_coe, List.map_filterMap]
  refine ((List.reverse_perm _).filterMap _).trans ?_
  rw [hplaces]
  exact (hl.perm hs).filterMap _

theorem contacts_copy (hs : Sound [] s) (hl : Complete s l) :
    (s.copy l).contacts = s.contacts.map readContact := by
  have hplaces : (List.range s.mails.length).filterMap (s.copy l).contact =
      s.mails.filterMap fun m => (s.contact m).map readContact := by
    rw [← filterMap_range_getElem? s.mails]
    refine List.filterMap_congr fun j _ => ?_
    change (s.mails[j]?.bind _) = _
    cases s.mails[j]? with
    | none => rfl
    | some m =>
      rw [Option.bind_some, Option.bind_some]
      cases hmcp : s.contact m with
      | none => rfl
      | some mcp =>
        rw [Option.map_some, Option.map_some, copyMail, readContact, (hs.count m mcp hmcp).1]
        congr 3
        have hperm := (hl.perm hs).filter fun a => (s.nick a).any fun np => np.email == some m
        rw [usersIn, hperm.length_eq, users]
        simp
  rw [contacts, contacts, Multiset.map_coe, Multiset.coe_eq_coe, List.map_filterMap]
  refine ((List.reverse_perm _).filterMap _).trans ?_
  rw [hplaces]

/-! ### What survives -/

/-- Two ways of writing what is told apart by a key that they leave. -/
theorem map_eq_map_iff {α κ : Type*} {f g : α → α} (key : α → κ) (hf : ∀ v, key (f v) = key v)
    (hg : ∀ v, key (g v) = key v) {S : Multiset α}
    (hS : ∀ v ∈ S, ∀ w ∈ S, key v = key w → v = w) :
    S.map f = S.map g ↔ ∀ v ∈ S, f v = g v := by
  refine ⟨fun h v hv => ?_, Multiset.map_congr rfl⟩
  obtain ⟨w, hw, heq⟩ := Multiset.mem_map.mp (h ▸ Multiset.mem_map_of_mem f hv)
  have hkey : key w = key v := by rw [← hg, heq, hf]
  rw [← heq, hS w hw v hv hkey]

/-- What never gets longer, and is left if it does not get shorter. -/
theorem map_eq_self_iff {α : Type*} {f : α → α} (size : α → ℕ) (hle : ∀ x, size (f x) ≤ size x)
    (heq : ∀ x, size (f x) = size x → f x = x) {S : Multiset α} :
    S.map f = S ↔ ∀ x ∈ S, f x = x := by
  constructor
  · intro h x hx
    by_contra hne
    have hlt : (S.map fun x => size (f x)).sum < (S.map size).sum :=
      Multiset.sum_lt_sum (fun x _ => hle x)
        ⟨x, hx, Nat.lt_of_le_of_ne (hle x) fun hsize => hne (heq x hsize)⟩
    have hmap : (S.map fun x => size (f x)) = (S.map f).map size := by
      rw [Multiset.map_map]
      rfl
    rw [hmap, h] at hlt
    exact Nat.lt_irrefl _ hlt
  · intro h
    exact (Multiset.map_congr rfl h).trans (Multiset.map_id' S)

theorem stripped_of_length {t : Bytes} (h : (stripped t).length = t.length) : stripped t = t :=
  (List.rdropWhile_prefix _ _).eq_of_length h

theorem stripped_eq_iff {t : Bytes} (h : newline ∉ t) : stripped t = t ↔ t.getLast? ≠ some 13 := by
  rcases List.eq_nil_or_concat' t with rfl | ⟨r, c, rfl⟩
  · exact iff_of_true rfl (by simp)
  · have hc : c ≠ newline := by
      rintro rfl
      exact h (by simp)
    rw [List.getLast?_concat, ne_eq, Option.some.injEq]
    by_cases hcr : c = 13
    · refine iff_of_false (fun heq => ?_) (not_not.mpr hcr)
      rw [stripped, List.rdropWhile_concat_pos _ _ _ (by rw [hcr]; decide)] at heq
      have hlen := congrArg List.length heq
      have hle := length_stripped_le r
      rw [stripped] at hle
      rw [hlen, List.length_append, List.length_singleton] at hle
      omega
    · refine iff_of_true ?_ hcr
      rw [stripped, List.rdropWhile_concat_neg]
      rw [isLineEnd, Bool.or_eq_true, beq_iff_eq, beq_iff_eq, not_or]
      exact ⟨hcr, hc⟩

theorem toInt32_eq_iff {t : ℤ} : toInt32 t = t ↔ IsInt t := by
  constructor
  · intro h
    have hbounds := toInt32_bounds t
    rwa [h] at hbounds
  · rintro ⟨hlow, hhigh⟩
    exact Int.bmod_eq_of_le (by omega) (by omega)

theorem mem_nickViews {v : NickView} (hs : Sound [] s) :
    v ∈ s.nickViews ↔ ∃ a np, s.nick a = some np ∧ s.view np = v := by
  rw [nickViews, Multiset.mem_coe, List.mem_filterMap]
  constructor
  · rintro ⟨a, -, hv⟩
    obtain ⟨np, hnp, rfl⟩ := Option.map_eq_some_iff.mp hv
    exact ⟨a, np, hnp, rfl⟩
  · rintro ⟨a, np, hnp, rfl⟩
    exact ⟨a, (hs.mem a).mpr (by rw [hnp]; simp), by rw [hnp]; rfl⟩

theorem mem_contacts {mcp : MailContact} (hs : Sound [] s) :
    mcp ∈ s.contacts ↔ ∃ m, s.contact m = some mcp := by
  rw [contacts, Multiset.mem_coe, List.mem_filterMap]
  constructor
  · rintro ⟨m, -, hm⟩
    exact ⟨m, hm⟩
  · rintro ⟨m, hm⟩
    exact ⟨m, hs.mem_mails_of_eq_some hm, hm⟩

/-- A nick is read as it was if its fields survive. -/
theorem read_view_iff (hfits : NickFits np) : (s.view np).read = (s.view np).saved ↔
    (IsInt np.last ∧ IsInt np.regtime) ∧ np.info.getLast? ≠ some 13 ∧
      ∀ rap ∈ np.alist, rap.2.getLast? ≠ some 13 := by
  have halist : Multiset.map (fun rap : Bytes × Bytes => (rap.1, stripped rap.2)) np.alist =
      (np.alist : Multiset (Bytes × Bytes)) ↔ ∀ rap ∈ np.alist, rap.2.getLast? ≠ some 13 := by
    rw [map_eq_self_iff (f := fun rap : Bytes × Bytes => (rap.1, stripped rap.2))
      (fun rap => rap.2.length) (fun rap => length_stripped_le rap.2)
      fun rap hlen => Prod.ext rfl (stripped_of_length hlen)]
    refine forall₂_congr fun rap hrap => ?_
    rw [Multiset.mem_coe] at hrap
    rw [← stripped_eq_iff (hfits.alist rap hrap).2.2.2.2, Prod.ext_iff]
    exact and_iff_right rfl
  rw [← stripped_eq_iff hfits.info.2, ← halist, ← toInt32_eq_iff, ← toInt32_eq_iff]
  constructor
  · intro h
    exact ⟨⟨congrArg NickView.last h, congrArg NickView.regtime h⟩, congrArg NickView.info h,
      congrArg NickView.alist h⟩
  · rintro ⟨⟨hlast, hreg⟩, hinfo, halist⟩
    exact NickView.ext rfl rfl rfl rfl hinfo rfl hlast hreg rfl rfl halist rfl rfl

theorem nickViews_read_iff (hp : Proper fold s) :
    s.nickViews.map NickView.read = s.nickViews.map NickView.saved ↔
      ∀ a np, s.nick a = some np → (IsInt np.last ∧ IsInt np.regtime) ∧
        np.info.getLast? ≠ some 13 ∧ ∀ rap ∈ np.alist, rap.2.getLast? ≠ some 13 := by
  rw [map_eq_map_iff (f := NickView.read) (g := NickView.saved) NickView.name (fun _ => rfl)
    fun _ => rfl]
  · constructor
    · intro h a np hnp
      exact (read_view_iff (hp.nick a np hnp)).mp
        (h _ ((mem_nickViews hp.sound).mpr ⟨a, np, hnp, rfl⟩))
    · intro h v hv
      obtain ⟨a, np, hnp, rfl⟩ := (mem_nickViews hp.sound).mp hv
      exact (read_view_iff (hp.nick a np hnp)).mpr (h a np hnp)
  · intro v hv w hw hname
    obtain ⟨a, np, hnp, rfl⟩ := (mem_nickViews hp.sound).mp hv
    obtain ⟨b, np', hnp', rfl⟩ := (mem_nickViews hp.sound).mp hw
    obtain rfl := hp.names a b np np' hnp hnp' (congrArg fold hname)
    rw [Option.some.inj (hnp.symm.trans hnp')]

theorem contacts_read_iff (hp : Proper fold s) :
    s.contacts.map readContact = s.contacts ↔ ∀ m mcp, s.contact m = some mcp → IsInt mcp.last := by
  have hid : s.contacts.map readContact = s.contacts ↔
      s.contacts.map readContact = s.contacts.map id := by rw [Multiset.map_id]
  rw [hid, map_eq_map_iff (f := readContact) (g := id) MailContact.address (fun _ => rfl)
    fun _ => rfl]
  · constructor
    · intro h m mcp hm
      exact toInt32_eq_iff.mp
        (congrArg MailContact.last (h mcp ((mem_contacts hp.sound).mpr ⟨m, hm⟩)))
    · intro h mcp hmcp
      obtain ⟨m, hm⟩ := (mem_contacts hp.sound).mp hmcp
      rw [readContact, toInt32_eq_iff.mpr (h m mcp hm)]
      rfl
  · intro mcp hmcp mcp' hmcp' haddress
    obtain ⟨m, hm⟩ := (mem_contacts hp.sound).mp hmcp
    obtain ⟨m', hm'⟩ := (mem_contacts hp.sound).mp hmcp'
    obtain rfl := hp.addresses m m' mcp mcp' hm hm' (sameCase_iff.mpr (by rw [haddress]))
    exact Option.some.inj (hm.symm.trans hm')

/-- If no nick is due, what is read is what was written if and only if all fields survive. -/
theorem restored_iff (fold : Bytes → Bytes) (e : Expiry) (s : NickStore) (hp : Proper fold s)
    (hdue : ∀ a np, s.nick a = some np → due e np = false) : Restored fold e s ↔ Survives s := by
  have hwrite := dbWriteFile_eq hp.sound hp.unmarked hdue
  have hread := dbReadFile_fileOf hp
  have hl := complete_writeOrder hp.sound
  have hsame : Restored fold e s ↔ s.nickViews.map NickView.read = s.nickViews.map NickView.saved ∧
      s.contacts.map readContact = s.contacts := by
    constructor
    · rintro ⟨s', file, t, hfile, ht, -, hnicks, hcontacts⟩
      obtain ⟨-, rfl⟩ := Prod.mk.inj (Option.some.inj (hwrite.symm.trans hfile))
      obtain rfl := Option.some.inj (hread.symm.trans ht)
      rw [nickViews_copy hp.sound hl] at hnicks
      rw [contacts_copy hp.sound hl] at hcontacts
      exact ⟨hnicks, hcontacts⟩
    · rintro ⟨hnicks, hcontacts⟩
      refine ⟨_, _, _, hwrite, hread, copy_sound hp.sound hl, ?_, ?_⟩
      · rw [nickViews_copy hp.sound hl, hnicks]
      · rw [contacts_copy hp.sound hl, hcontacts]
  rw [hsame, nickViews_read_iff hp, contacts_read_iff hp]
  constructor
  · rintro ⟨hnicks, hmails⟩
    exact ⟨fun a np hnp => (hnicks a np hnp).2.1, fun a np hnp => (hnicks a np hnp).2.2,
      fun a np hnp => (hnicks a np hnp).1, hmails⟩
  · intro h
    exact ⟨fun a np hnp => ⟨h.times a np hnp, h.info a np hnp, h.alist a np hnp⟩, h.mail⟩

/-! ### One nick, and its `info` -/

theorem nickFits_plainNick : NickFits plainNick :=
  ⟨by decide, by decide, by decide, by decide, by decide, by decide⟩

theorem proper_loneNick (info : Bytes) (hinfo : info.length ≤ GCOSLEN ∧ newline ∉ info) :
    Proper id (loneNick { plainNick with info := info } plainMail) where
  sound := sound_loneNick _ _
  unmarked a np hnp := by
    obtain ⟨-, rfl⟩ := loneNick_eq hnp
    have hsync : synced plainNick = false := by decide
    exact hsync
  level a np p pp hnp hpar _ := by
    obtain ⟨-, rfl⟩ := loneNick_eq hnp
    cases hpar
  names a b np np' hnp hnp' _ := by
    obtain ⟨rfl, -⟩ := loneNick_eq hnp
    exact (loneNick_eq hnp').1.symm
  addresses m m' mcp mcp' hm hm' _ := by
    obtain ⟨rfl, -⟩ := loneNick_contact_eq hm
    exact (loneNick_contact_eq hm').1.symm
  nick a np hnp := by
    obtain ⟨-, rfl⟩ := loneNick_eq hnp
    have h := nickFits_plainNick
    exact ⟨h.name, h.user, h.host, h.pass, hinfo, h.alist⟩
  mail m mcp hm := by
    obtain ⟨-, rfl⟩ := loneNick_contact_eq hm
    decide

theorem not_due_loneNick (info : Bytes) : ∀ a np,
    (loneNick { plainNick with info := info } plainMail).nick a = some np →
      due ⟨100, 50⟩ np = false := by
  intro a np hnp
  obtain ⟨-, rfl⟩ := loneNick_eq hnp
  have hdue : due ⟨100, 50⟩ plainNick = false := by decide
  exact hdue

/-- A nick with an `info` that a carriage return does not end is restored. -/
theorem restored_iff_loneNick :
    Restored id ⟨100, 50⟩ (loneNick { plainNick with info := bytes "Tinuviel" } plainMail) := by
  refine (restored_iff id ⟨100, 50⟩ _ (proper_loneNick _ (by decide)) (not_due_loneNick _)).mpr ?_
  constructor
  · intro a np hnp
    obtain ⟨-, rfl⟩ := loneNick_eq hnp
    decide
  · intro a np hnp
    obtain ⟨-, rfl⟩ := loneNick_eq hnp
    decide
  · intro a np hnp
    obtain ⟨-, rfl⟩ := loneNick_eq hnp
    exact ⟨⟨by decide, by decide⟩, ⟨by decide, by decide⟩⟩
  · intro m mcp hm
    obtain ⟨-, rfl⟩ := loneNick_contact_eq hm
    exact ⟨by decide, by decide⟩

/-- An `info` that one ends is not. -/
theorem round_trip_fails : ¬ ∀ (fold : Bytes → Bytes) (e : Expiry) (s : NickStore), Proper fold s →
    (∀ a np, s.nick a = some np → due e np = false) → Restored fold e s := by
  intro h
  obtain ⟨s', file, t, hfile, ht, -, hnicks, -⟩ := h id ⟨100, 50⟩ _
    (proper_loneNick (bytes "Tinuviel" ++ [13]) (by decide)) (not_due_loneNick _)
  have hproper := proper_loneNick (bytes "Tinuviel" ++ [13]) (by decide)
  have hl := complete_writeOrder hproper.sound
  obtain ⟨-, rfl⟩ := Prod.mk.inj (Option.some.inj
    ((dbWriteFile_eq hproper.sound hproper.unmarked (not_due_loneNick _)).symm.trans hfile))
  obtain rfl := Option.some.inj ((dbReadFile_fileOf hproper).symm.trans ht)
  rw [nickViews_copy hproper.sound hl, nickViews_read_iff hproper] at hnicks
  exact (hnicks 0 _ (loneNick_self _ _).1).2.1 (by decide)

end Ithildin.NickStore
