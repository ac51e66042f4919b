import Ithildin.Command.Folding
import Ithildin.Match
import Ithildin.Printf
import Mathlib.Data.List.Lex

/-!
# Supported features

The list of features in `support.c` and the lines that clients get of it.

* `addIsupport`, `findIsupport`, `delIsupport`: the functions on the list, with the C library's
  `snprintf`;
* `sendIsupport`: `send_isupport` with its line buffer;
* `pack`: the tokens that come to be in one line;
* `isupport_iff`: when the list stays in order, and when every token is sent.
-/

namespace Ithildin

open Buffer

def ISUPPORT_MAX : ℕ := 12
def ISUPPORT_MAXLEN : ℕ := 300
def ISUPPORTNAME_MAXLEN : ℕ := 31

/-- The byte `'='`. -/
def equalsSign : UInt8 := 61

/-- `strcasecmp`. -/
def strcasecmp : Bytes → Bytes → ℤ
  | [], [] => 0
  | [], d :: _ => - (toLower d).toNat
  | c :: _, [] => (toLower c).toNat
  | c :: s, d :: t =>
      if toLower c = toLower d then strcasecmp s t else (toLower c).toNat - (toLower d).toNat

/-- What `add_isupport` is given in `flags` and `val`. -/
inductive IsupportArg
  | none
  | str (val : Bytes)
  | int (val : UInt64)
  | priv (num : ℕ)
  deriving DecidableEq

/-- `value`. -/
inductive IsupportValue
  | str (s : Bytes)
  | priv (num : ℕ)
  deriving DecidableEq

/-- `snprintf(buf, ISUPPORT_MAXLEN, "%s=...", name, ...)`. -/
def nameAndValue (name : Bytes) (item : FormatItem) : Bytes :=
  (printfText [.str (some name), .text equalsSign, item]).take (ISUPPORT_MAXLEN - 1)

/-- The value that is stored. -/
def IsupportArg.value (name : Bytes) : IsupportArg → IsupportValue
  | .none => .str name
  | .str val => .str (nameAndValue name (.str (some (strAt val))))
  | .int val => .str (nameAndValue name (.num .d .ll val))
  | .priv num => .priv num

/-- No NUL is printed, unless as a character. -/
theorem isText_printed {item : FormatItem} (h : item.Ok) (hchr : ∀ w, item ≠ .chr w) :
    IsText item.printed := by
  have hnumeral : ∀ conv : NumConv, ∀ n, IsText (numeral conv.base n) := by
    intro conv n
    apply isText_numeral <;> cases conv <;> decide
  cases item with
  | text c => exact isText_cons.2 ⟨h.2, by simp [IsText]⟩
  | percent => decide
  | str s =>
    cases s with
    | none => decide
    | some s => exact h
  | chr w => exact absurd rfl (hchr w)
  | num conv form w =>
    rw [FormatItem.printed]
    split
    · exact isText_cons.2 ⟨by decide, hnumeral conv _⟩
    · exact hnumeral conv _

/-- What such a text is like. -/
theorem nameAndValue_spec {name : Bytes} {item : FormatItem} (hname : IsText name)
    (hlength : name.length ≤ ISUPPORTNAME_MAXLEN) (hitem : IsText item.printed) :
    IsText (nameAndValue name item) ∧ (nameAndValue name item).length < ISUPPORT_MAXLEN ∧
      name <+: nameAndValue name item := by
  have htext : printfText [.str (some name), .text equalsSign, item] =
      name ++ (equalsSign :: item.printed) := by
    simp [printfText, FormatItem.printed]
  unfold nameAndValue
  rw [htext]
  refine ⟨?_, ?_, ?_⟩
  · exact isText_take (isText_append.2 ⟨hname, isText_cons.2 ⟨by decide, hitem⟩⟩) _
  · rw [List.length_take, ISUPPORT_MAXLEN]
    omega
  · rw [List.take_append, List.take_of_length_le]
    · exact List.prefix_append _ _
    · rw [ISUPPORTNAME_MAXLEN] at hlength
      rw [ISUPPORT_MAXLEN]
      omega

/-- `struct isupport`, with a number in place of its address. -/
structure Isupport where
  ip : ℕ
  name : Bytes
  value : IsupportValue
  name_text : IsText name
  name_le : name.length ≤ ISUPPORTNAME_MAXLEN
  value_ok : ∀ s, value = .str s → IsText s ∧ s.length < ISUPPORT_MAXLEN ∧ name <+: s
  deriving DecidableEq

/-- The structure that `add_isupport` fills for a name. -/
def Isupport.make (ip : ℕ) (name : Bytes) (arg : IsupportArg) : Isupport where
  ip := ip
  name := (strAt name).take ISUPPORTNAME_MAXLEN
  value := arg.value ((strAt name).take ISUPPORTNAME_MAXLEN)
  name_text := isText_take (isText_strAt name) _
  name_le := List.length_take_le _ _
  value_ok := by
    have hname : IsText ((strAt name).take ISUPPORTNAME_MAXLEN) :=
      isText_take (isText_strAt name) _
    have hlength := List.length_take_le ISUPPORTNAME_MAXLEN (strAt name)
    intro s hs
    cases arg with
    | none =>
      obtain rfl := IsupportValue.str.inj hs
      refine ⟨hname, ?_, List.prefix_rfl⟩
      exact hlength.trans_lt (by decide)
    | str val =>
      obtain rfl := IsupportValue.str.inj hs
      exact nameAndValue_spec hname hlength (isText_printed (isText_strAt val) (by simp))
    | int val =>
      obtain rfl := IsupportValue.str.inj hs
      exact nameAndValue_spec hname hlength (isText_printed trivial (by simp))
    | priv num => cases hs

/-- `ircd.lists.isupport` and the next address. -/
structure IsupportState where
  list : List Isupport
  next : ℕ

/-- The loop of `add_isupport` that finds the place. -/
def insertIsupport (ip : Isupport) : List Isupport → List Isupport
  | [] => [ip]
  | ip2 :: list =>
      if 0 < strcasecmp ip2.name ip.name then ip :: ip2 :: list
      else ip2 :: insertIsupport ip list

/-- `find_isupport`. -/
def findIsupport (list : List Isupport) (name : Bytes) : Option Isupport :=
  list.find? fun ip => strcasecmp ip.name (strAt name) = 0

/-- `del_isupport`. -/
def delIsupport (list : List Isupport) (ip : Option ℕ) : List Isupport :=
  match ip with
  | none => list
  | some ip => list.filter fun ip2 => ip2.ip ≠ ip

/-- `add_isupport`. -/
def addIsupport (s : IsupportState) (name : Bytes) (arg : IsupportArg) : IsupportState where
  list := insertIsupport (.make s.next name arg)
    (delIsupport s.list ((findIsupport s.list name).map Isupport.ip))
  next := s.next + 1

/-- A call of `add_isupport` or of `del_isupport`. -/
inductive IsupportCall
  | add (name : Bytes) (arg : IsupportArg)
  | del (ip : Option ℕ)

/-- A call; only what is on the list can be deleted. -/
def IsupportState.step (s : IsupportState) : IsupportCall → Option IsupportState
  | .add name arg => some (addIsupport s name arg)
  | .del ip =>
      if ∀ id ∈ ip, id ∈ s.list.map Isupport.ip then some { s with list := delIsupport s.list ip }
      else none

/-! ### Sending -/

/-- What a privilege is for a client, by its type. -/
inductive PrivView
  | bool (val : UInt64)
  | num (val : UInt64)
  | str (val : Option Bytes)
  deriving DecidableEq

/-- The token for an entry. -/
def Isupport.token (privs : ℕ → PrivView) (ip : Isupport) : Bytes :=
  match ip.value with
  | .str s => s
  | .priv num =>
      match privs num with
      | .bool val => if val ≠ 0 then ip.name else nameAndValue ip.name (.num .d .ll val)
      | .num val => nameAndValue ip.name (.num .d .ll val)
      | .str val => nameAndValue ip.name (.str (val.map strAt))

/-- `str`, `slen`, `tc` and the lines that were sent. -/
structure IsupportSend where
  str : Bytes
  slen : ℕ
  tc : ℕ
  sent : List Bytes
  deriving DecidableEq

/-- A turn of the loop. -/
def sendToken (st : IsupportSend) (token : Bytes) : IsupportSend :=
  let st := { st with tc := st.tc + 1 }
  let st :=
    if st.tc = ISUPPORT_MAX ∨ ISUPPORT_MAXLEN ≤ st.slen + token.length then
      { st with sent := st.sent ++ [strAt st.str], slen := 0, tc := 0 }
    else st
  let text := if st.slen ≠ 0 then blank :: token else token
  { st with str := storeAt st.slen (text ++ [0]) st.str, slen := st.slen + text.length }

/-- The remnants. -/
def sendRest (st : IsupportSend) : IsupportSend :=
  if st.slen ≠ 0 then { st with sent := st.sent ++ [strAt st.str] } else st

/-- `send_isupport`; `junk` is in the buffer before. -/
def sendIsupport (privs : ℕ → PrivView) (list : List Isupport) (junk : Bytes) : IsupportSend :=
  sendRest ((list.map (Isupport.token privs)).foldl sendToken ⟨junk, 0, 0, []⟩)

/-! ### The order of the list -/

/-- A name as it is compared. -/
def caseKey (s : Bytes) : List ℕ := s.map fun c => (toLower c).toNat

theorem caseKey_eq_iff {s t : Bytes} : caseKey s = caseKey t ↔ sameCase s t = true := by
  have hmap : ∀ s : Bytes, caseKey s = (s.map toLower).map UInt8.toNat := by
    intro s
    rw [caseKey, List.map_map]
    rfl
  have hinj : Function.Injective UInt8.toNat := fun _ _ h => UInt8.toNat_inj.1 h
  rw [sameCase_iff, hmap, hmap, (List.map_injective_iff.2 hinj).eq_iff]

theorem toLower_toNat_pos {c : UInt8} (h : c ≠ 0) : 0 < (toLower c).toNat := by
  refine Nat.pos_of_ne_zero fun hzero => h (toLower_eq_zero.1 ?_)
  exact UInt8.toNat_inj.1 hzero

/-- The sign of `strcasecmp` is the order of the names. -/
theorem strcasecmp_spec {s t : Bytes} (hs : IsText s) (ht : IsText t) :
    (strcasecmp s t < 0 ↔ caseKey s < caseKey t) ∧
      (0 < strcasecmp s t ↔ caseKey t < caseKey s) := by
  induction s generalizing t with
  | nil =>
    cases t with
    | nil => simp [strcasecmp, caseKey]
    | cons d t =>
      have hd := toLower_toNat_pos (isText_cons.1 ht).1
      simp [strcasecmp, caseKey, hd]
  | cons c s ih =>
    obtain ⟨hc, hs⟩ := isText_cons.1 hs
    cases t with
    | nil =>
      have hc := toLower_toNat_pos hc
      simp [strcasecmp, caseKey, hc]
    | cons d t =>
      obtain ⟨-, ht⟩ := isText_cons.1 ht
      obtain ⟨hneg, hpos⟩ := ih hs ht
      rw [strcasecmp]
      simp only [caseKey, List.map_cons, List.cons_lt_cons_iff] at hneg hpos ⊢
      by_cases heq : toLower c = toLower d
      · rw [if_pos heq, heq, hneg, hpos]
        simp
      · have hne : (toLower c).toNat ≠ (toLower d).toNat := fun h => heq (UInt8.toNat_inj.1 h)
        rw [if_neg heq]
        simp only [hne, hne.symm, false_and, or_false]
        omega

theorem strcasecmp_eq_zero {s t : Bytes} (hs : IsText s) (ht : IsText t) :
    strcasecmp s t = 0 ↔ caseKey s = caseKey t := by
  obtain ⟨hneg, hpos⟩ := strcasecmp_spec hs ht
  constructor
  · intro h
    refine le_antisymm (not_lt.1 (mt hpos.2 ?_)) (not_lt.1 (mt hneg.2 ?_)) <;> omega
  · intro h
    have hneg' := mt hneg.1 h.not_lt
    have hpos' := mt hpos.1 h.symm.not_lt
    omega

/-- Sorted, and without two names that differ in case only. -/
structure Ordered (list : List Isupport) : Prop where
  sorted : list.Pairwise fun a b => strcasecmp a.name b.name ≤ 0
  distinct : list.Pairwise fun a b => sameCase a.name b.name = false

theorem ordered_iff {list : List Isupport} :
    Ordered list ↔ list.Pairwise fun a b => caseKey a.name < caseKey b.name := by
  have hboth : ∀ a b : Isupport, strcasecmp a.name b.name ≤ 0 ∧ sameCase a.name b.name = false ↔
      caseKey a.name < caseKey b.name := by
    intro a b
    obtain ⟨-, hpos⟩ := strcasecmp_spec a.name_text b.name_text
    rw [← not_lt, hpos, not_lt, lt_iff_le_and_ne, ne_eq, caseKey_eq_iff, Bool.not_eq_true]
  constructor
  · rintro ⟨hsorted, hdistinct⟩
    exact (hsorted.and hdistinct).imp fun h => (hboth _ _).1 h
  · intro h
    exact ⟨h.imp fun h => ((hboth _ _).2 h).1, h.imp fun h => ((hboth _ _).2 h).2⟩

theorem insertIsupport_perm (ip : Isupport) (list : List Isupport) :
    (insertIsupport ip list).Perm (ip :: list) := by
  induction list with
  | nil => exact .refl _
  | cons ip2 list ih =>
    rw [insertIsupport]
    split
    · exact .refl _
    · exact (ih.cons ip2).trans (.swap _ _ _)

/-- A new name keeps the order, and no other does. -/
theorem ordered_insert {ip : Isupport} {list : List Isupport} (h : Ordered list) :
    Ordered (insertIsupport ip list) ↔ ∀ ip2 ∈ list, caseKey ip2.name ≠ caseKey ip.name := by
  rw [ordered_iff] at h ⊢
  constructor
  · intro hinsert ip2 hmem
    have hne : (insertIsupport ip list).Pairwise fun a b => caseKey a.name ≠ caseKey b.name :=
      hinsert.imp fun h => h.ne
    have hcons := (insertIsupport_perm ip list).pairwise_iff (fun h => h.symm) |>.1 hne
    exact ((List.pairwise_cons.1 hcons).1 ip2 hmem).symm
  · intro hnew
    induction list with
    | nil => exact List.pairwise_singleton _ _
    | cons ip2 list ih =>
      obtain ⟨hhead, htail⟩ := List.pairwise_cons.1 h
      have hpos := (strcasecmp_spec ip2.name_text ip.name_text).2
      rw [insertIsupport]
      split
      · rename_i hplace
        have hlt := hpos.1 hplace
        refine List.pairwise_cons.2 ⟨fun a ha => ?_, h⟩
        rcases List.mem_cons.1 ha with rfl | ha
        · exact hlt
        · exact hlt.trans (hhead a ha)
      · rename_i hplace
        have hlt : caseKey ip2.name < caseKey ip.name :=
          lt_of_le_of_ne (not_lt.1 (mt hpos.2 hplace)) (hnew ip2 List.mem_cons_self)
        refine List.pairwise_cons.2 ⟨fun a ha => ?_, ih htail fun a ha =>
          hnew a (List.mem_cons_of_mem _ ha)⟩
        rcases List.mem_cons.1 ((insertIsupport_perm ip list).mem_iff.1 ha) with rfl | ha
        · exact hlt
        · exact hhead a ha

theorem delIsupport_sublist (list : List Isupport) (ip : Option ℕ) :
    (delIsupport list ip).Sublist list := by
  cases ip with
  | none => exact .refl _
  | some ip => exact List.filter_sublist

theorem Ordered.del {list : List Isupport} (h : Ordered list) (ip : Option ℕ) :
    Ordered (delIsupport list ip) :=
  ordered_iff.2 ((ordered_iff.1 h).sublist (delIsupport_sublist list ip))

/-- What is cut off a name makes no difference. -/
def NameFits (s : IsupportState) : IsupportCall → Prop
  | .add name _ => (strAt name).length ≤ ISUPPORTNAME_MAXLEN ∨
      ∀ ip ∈ s.list, sameCase ip.name ((strAt name).take ISUPPORTNAME_MAXLEN) = false
  | .del _ => True

/-- No entry with the name is left if there was one at most. -/
theorem not_mem_del {list : List Isupport} {name : Bytes}
    (hone : ∀ a ∈ list, ∀ b ∈ list, caseKey a.name = caseKey (strAt name) →
      caseKey b.name = caseKey (strAt name) → a = b) :
    ∀ ip ∈ delIsupport list ((findIsupport list name).map Isupport.ip),
      caseKey ip.name ≠ caseKey (strAt name) := by
  have hcmp : ∀ ip : Isupport, strcasecmp ip.name (strAt name) = 0 ↔
      caseKey ip.name = caseKey (strAt name) :=
    fun ip => strcasecmp_eq_zero ip.name_text (isText_strAt name)
  cases hfind : findIsupport list name with
  | none =>
    intro ip hip heq
    have hnot := List.find?_eq_none.1 hfind ip hip
    exact hnot (by simpa using (hcmp ip).2 heq)
  | some found =>
    intro ip hip heq
    obtain ⟨hip, hne⟩ := List.mem_filter.1 hip
    have hfound : caseKey found.name = caseKey (strAt name) :=
      (hcmp found).1 (by simpa using List.find?_some hfind)
    have hmem := List.mem_of_find?_eq_some hfind
    rw [hone ip hip found hmem heq hfound] at hne
    simp at hne

theorem Ordered.eq_of_key {list : List Isupport} (h : Ordered list) {a b : Isupport}
    (ha : a ∈ list) (hb : b ∈ list) (hkey : caseKey a.name = caseKey b.name) : a = b := by
  have hnodup : (list.map fun ip => caseKey ip.name).Nodup :=
    List.pairwise_map.2 ((ordered_iff.1 h).imp fun hlt => hlt.ne)
  exact List.inj_on_of_nodup_map hnodup ha hb hkey

theorem ordered_add {s : IsupportState} (h : Ordered s.list) (name : Bytes) (arg : IsupportArg) :
    Ordered (addIsupport s name arg).list ↔ NameFits s (.add name arg) := by
  rw [addIsupport, ordered_insert (h.del _)]
  change (∀ ip2 : Isupport, ip2 ∈ _ → caseKey ip2.name ≠
    caseKey ((strAt name).take ISUPPORTNAME_MAXLEN)) ↔ _
  by_cases hshort : (strAt name).length ≤ ISUPPORTNAME_MAXLEN
  · rw [List.take_of_length_le hshort]
    refine iff_of_true (not_mem_del fun a ha b hb hakey hbkey => ?_) (Or.inl hshort)
    exact h.eq_of_key ha hb (hakey.trans hbkey.symm)
  · -- a longer name is not found
    have hnone : findIsupport s.list name = none := by
      refine List.find?_eq_none.2 fun ip _ => ?_
      rw [decide_eq_true_iff, strcasecmp_eq_zero ip.name_text (isText_strAt name)]
      intro heq
      have hlength := congrArg List.length heq
      have hle := ip.name_le
      simp only [caseKey, List.length_map] at hlength
      omega
    rw [hnone]
    simp only [NameFits, hshort, false_or, Option.map_none, delIsupport]
    refine forall₂_congr fun ip _ => ?_
    rw [ne_eq, caseKey_eq_iff, Bool.not_eq_true]

/-! ### The empty name -/

/-- Only the first entry may have an empty name. -/
def Headed (list : List Isupport) : Prop :=
  list.Pairwise fun a b => caseKey a.name ≤ caseKey b.name ∧ b.name ≠ []

@[simp] theorem caseKey_eq_nil {s : Bytes} : caseKey s = [] ↔ s = [] := by simp [caseKey]

theorem ne_nil_of_caseKey_lt {s t : Bytes} (h : caseKey s < caseKey t) : t ≠ [] := by
  rintro rfl
  exact List.not_lt_nil _ h

theorem Headed.insert {ip : Isupport} {list : List Isupport} (h : Headed list)
    (hnew : ip.name = [] → ∀ ip2 ∈ list, ip2.name ≠ []) : Headed (insertIsupport ip list) := by
  induction list with
  | nil => exact List.pairwise_singleton _ _
  | cons ip2 list ih =>
    obtain ⟨hhead, htail⟩ := List.pairwise_cons.1 h
    have hpos := (strcasecmp_spec ip2.name_text ip.name_text).2
    rw [insertIsupport]
    split
    · rename_i hplace
      have hlt := hpos.1 hplace
      refine List.pairwise_cons.2 ⟨fun a ha => ?_, h⟩
      rcases List.mem_cons.1 ha with rfl | ha
      · exact ⟨hlt.le, ne_nil_of_caseKey_lt hlt⟩
      · exact ⟨hlt.le.trans (hhead a ha).1, (hhead a ha).2⟩
    · rename_i hplace
      have hle : caseKey ip2.name ≤ caseKey ip.name := not_lt.1 (mt hpos.2 hplace)
      have hrest := ih htail fun hnil a ha => hnew hnil a (List.mem_cons_of_mem _ ha)
      refine List.pairwise_cons.2 ⟨fun a ha => ?_, hrest⟩
      rcases List.mem_cons.1 ((insertIsupport_perm ip list).mem_iff.1 ha) with rfl | ha
      · refine ⟨hle, fun hnil => hnew hnil ip2 List.mem_cons_self ?_⟩
        cases hname : ip2.name with
        | nil => rfl
        | cons c t =>
          rw [hnil, hname] at hle
          exact absurd (List.nil_lt_cons _ _) (not_lt.2 hle)
      · exact hhead a ha

theorem Headed.del {list : List Isupport} (h : Headed list) (ip : Option ℕ) :
    Headed (delIsupport list ip) :=
  List.Pairwise.sublist (delIsupport_sublist list ip) h

theorem Headed.eq_of_nil {list : List Isupport} (h : Headed list) {a b : Isupport}
    (ha : a ∈ list) (hb : b ∈ list) (hanil : a.name = []) (hbnil : b.name = []) : a = b := by
  cases list with
  | nil => exact absurd ha List.not_mem_nil
  | cons c list =>
    have htail := (List.pairwise_cons.1 h).1
    have hfirst : ∀ d ∈ c :: list, d.name = [] → d = c := by
      intro d hd hdnil
      rcases List.mem_cons.1 hd with rfl | hd
      · rfl
      · exact absurd hdnil (htail d hd).2
    rw [hfirst a ha hanil, hfirst b hb hbnil]

/-- Every list that comes of the calls is like this. -/
theorem headed_of_run {calls : List IsupportCall} {s : IsupportState}
    (hrun : Run.run IsupportState.step ⟨[], 0⟩ calls = some s) : Headed s.list := by
  have hstart : Headed (IsupportState.mk [] 0).list := List.Pairwise.nil
  refine Run.run_induction (I := fun _ s => Headed s.list) hstart ?_ hrun
  rintro - s (⟨name, arg⟩ | ip) s' h hs'
  · obtain rfl := Option.some.inj hs'
    refine (h.del _).insert fun hnil => ?_
    have hname : strAt name = [] := by
      have htake : (strAt name).take ISUPPORTNAME_MAXLEN = [] := hnil
      simpa [ISUPPORTNAME_MAXLEN] using htake
    have hne : ∀ ip ∈ delIsupport s.list ((findIsupport s.list name).map Isupport.ip),
        caseKey ip.name ≠ caseKey (strAt name) := by
      refine not_mem_del fun a ha b hb hakey hbkey => ?_
      rw [hname] at hakey hbkey
      exact h.eq_of_nil ha hb (caseKey_eq_nil.1 hakey) (caseKey_eq_nil.1 hbkey)
    intro ip2 hip2 hnil2
    exact hne ip2 hip2 (by rw [hname, hnil2])
  · simp only [IsupportState.step] at hs'
    split at hs'
    · obtain rfl := Option.some.inj hs'
      exact h.del ip
    · cases hs'

/-! ### The lines -/

/-- The text of a token: the name and what may follow it. -/
theorem Isupport.token_spec (ip : Isupport) (privs : ℕ → PrivView) :
    IsText (ip.token privs) ∧ (ip.token privs).length < ISUPPORT_MAXLEN ∧
      ip.name <+: ip.token privs := by
  have hname : IsText ip.name ∧ ip.name.length < ISUPPORT_MAXLEN ∧ ip.name <+: ip.name :=
    ⟨ip.name_text, ip.name_le.trans_lt (by decide), List.prefix_rfl⟩
  have hnum : ∀ val, IsText (FormatItem.num .d .ll val).printed :=
    fun val => isText_printed trivial (by simp)
  unfold Isupport.token
  cases hvalue : ip.value with
  | str s => exact ip.value_ok s hvalue
  | priv num =>
    dsimp only
    cases privs num with
    | bool val =>
      dsimp only
      split
      · exact hname
      · exact nameAndValue_spec ip.name_text ip.name_le (hnum val)
    | num val => exact nameAndValue_spec ip.name_text ip.name_le (hnum val)
    | str val =>
      refine nameAndValue_spec ip.name_text ip.name_le (isText_printed ?_ (by simp))
      cases val with
      | none => trivial
      | some val => exact isText_strAt val

/-- The text of a line. -/
def lineText : List Bytes → Bytes
  | [] => []
  | token :: line => joined token line

theorem lineText_concat {line : List Bytes} (h : line ≠ []) (token : Bytes) :
    lineText (line ++ [token]) = lineText line ++ blank :: token := by
  cases line with
  | nil => exact absurd rfl h
  | cons first line => simp [lineText, joined]

theorem isText_lineText {line : List Bytes} (h : ∀ token ∈ line, IsText token) :
    IsText (lineText line) := by
  cases line with
  | nil => simp [lineText, IsText]
  | cons first line =>
    exact isText_joined (h first List.mem_cons_self)
      fun token htoken => h token (List.mem_cons_of_mem _ htoken)

/-- The tokens of each line; `tc` is the counter. -/
def packFrom (line : List Bytes) (tc : ℕ) : List Bytes → List (List Bytes)
  | [] => if line = [] then [] else [line]
  | token :: tokens =>
      if tc + 1 = ISUPPORT_MAX ∨ ISUPPORT_MAXLEN ≤ (lineText line).length + token.length then
        line :: packFrom [token] 0 tokens
      else packFrom (line ++ [token]) (tc + 1) tokens

def pack (tokens : List Bytes) : List (List Bytes) := packFrom [] 0 tokens

theorem flatten_packFrom (line : List Bytes) (tc : ℕ) (tokens : List Bytes) :
    (packFrom line tc tokens).flatten = line ++ tokens := by
  induction tokens generalizing line tc with
  | nil =>
    rw [packFrom]
    split <;> simp [*]
  | cons token tokens ih =>
    rw [packFrom]
    split <;> simp [ih]

/-- The counter keeps the lines short. -/
theorem packFrom_size {line : List Bytes} {tc : ℕ} (hline : line ≠ [])
    (hsize : line.length ≤ tc + 1) (htc : tc < ISUPPORT_MAX) (tokens : List Bytes) :
    ∀ l ∈ packFrom line tc tokens, l ≠ [] ∧ l.length ≤ ISUPPORT_MAX := by
  have hfits : line.length ≤ ISUPPORT_MAX := by omega
  induction tokens generalizing line tc with
  | nil =>
    intro l hl
    rw [packFrom, if_neg hline] at hl
    obtain rfl := List.mem_singleton.1 hl
    exact ⟨hline, hfits⟩
  | cons token tokens ih =>
    intro l hl
    rw [packFrom] at hl
    split at hl
    · rcases List.mem_cons.1 hl with rfl | hl
      · exact ⟨hline, hfits⟩
      · exact ih (by simp) (by simp) (by decide) (by simp [ISUPPORT_MAX]) l hl
    · rename_i hkeep
      rw [not_or] at hkeep
      have hsize' : (line ++ [token]).length ≤ tc + 1 + 1 := by simp; omega
      exact ih (by simp) hsize' (by omega) (by omega) l hl

/-- Nothing comes behind a line that is full. -/
theorem mem_packFrom_of_full {line : List Bytes} (h : ISUPPORT_MAXLEN ≤ (lineText line).length)
    (tc : ℕ) (tokens : List Bytes) : line ∈ packFrom line tc tokens := by
  cases tokens with
  | nil =>
    have hline : line ≠ [] := by
      rintro rfl
      exact absurd h (by decide)
    rw [packFrom, if_neg hline]
    exact List.mem_singleton_self line
  | cons token tokens =>
    rw [packFrom, if_pos (Or.inr (by omega))]
    exact List.mem_cons_self

/-- What the buffer holds while the tokens of a line come in. -/
structure IsupportSend.Holds (st : IsupportSend) (line : List Bytes) : Prop where
  slen : st.slen = (lineText line).length
  str : ∃ rest, st.str = lineText line ++ 0 :: rest
  size : st.str.length = ISUPPORT_MAXLEN
  texts : ∀ token ∈ line, IsText token
  started : lineText line ≠ []

/-- A token that can be sent. -/
structure Sendable (token : Bytes) : Prop where
  ne_nil : token ≠ []
  text : IsText token
  short : token.length < ISUPPORT_MAXLEN

theorem IsupportSend.Holds.sent {st : IsupportSend} {line : List Bytes} (h : st.Holds line) :
    strAt st.str = lineText line := by
  obtain ⟨rest, hstr⟩ := h.str
  rw [hstr, strAt_append (isText_lineText h.texts)]

theorem IsupportSend.Holds.slen_ne_zero {st : IsupportSend} {line : List Bytes}
    (h : st.Holds line) : st.slen ≠ 0 := by
  rw [h.slen]
  exact fun hzero => h.started (List.length_eq_zero_iff.1 hzero)

theorem IsupportSend.Holds.ne_nil {st : IsupportSend} {line : List Bytes} (h : st.Holds line) :
    line ≠ [] := by
  rintro rfl
  exact h.started rfl

/-- The first token of a line. -/
theorem holds_first {str token : Bytes} (hsize : str.length = ISUPPORT_MAXLEN)
    (htoken : Sendable token) (tc : ℕ) (sent : List Bytes) :
    IsupportSend.Holds ⟨storeAt 0 (token ++ [0]) str, token.length, tc, sent⟩ [token] where
  slen := by simp [lineText]
  str := ⟨str.drop (token ++ [0]).length, by simp [lineText, storeAt_zero]⟩
  size := by
    have hshort := htoken.short
    rw [length_storeAt]
    · exact hsize
    · simp
      omega
  texts := by simpa using htoken.text
  started := by simpa [lineText] using htoken.ne_nil

theorem sendToken_flush {st : IsupportSend} {token : Bytes}
    (h : st.tc + 1 = ISUPPORT_MAX ∨ ISUPPORT_MAXLEN ≤ st.slen + token.length) :
    sendToken st token =
      ⟨storeAt 0 (token ++ [0]) st.str, token.length, 0, st.sent ++ [strAt st.str]⟩ := by
  unfold sendToken
  dsimp only
  rw [if_pos h]
  simp

theorem sendToken_keep {st : IsupportSend} {token : Bytes}
    (h : ¬ (st.tc + 1 = ISUPPORT_MAX ∨ ISUPPORT_MAXLEN ≤ st.slen + token.length)) :
    sendToken st token =
      ⟨storeAt st.slen ((if st.slen ≠ 0 then blank :: token else token) ++ [0]) st.str,
        st.slen + (if st.slen ≠ 0 then blank :: token else token).length, st.tc + 1, st.sent⟩ := by
  unfold sendToken
  dsimp only
  rw [if_neg h]

theorem length_le_sendToken (st : IsupportSend) (token : Bytes) :
    st.str.length ≤ (sendToken st token).str.length := by
  by_cases h : st.tc + 1 = ISUPPORT_MAX ∨ ISUPPORT_MAXLEN ≤ st.slen + token.length
  · rw [sendToken_flush h]
    exact length_le_storeAt _ _ _
  · rw [sendToken_keep h]
    exact length_le_storeAt _ _ _

theorem length_le_foldl_sendToken (st : IsupportSend) (tokens : List Bytes) :
    st.str.length ≤ (tokens.foldl sendToken st).str.length := by
  induction tokens generalizing st with
  | nil => exact le_rfl
  | cons token tokens ih => exact (length_le_sendToken st token).trans (ih _)

@[simp] theorem sendRest_str (st : IsupportSend) : (sendRest st).str = st.str := by
  unfold sendRest
  split <;> rfl

theorem IsupportSend.Holds.length_lt {st : IsupportSend} {line : List Bytes} (h : st.Holds line) :
    (lineText line).length < ISUPPORT_MAXLEN := by
  obtain ⟨rest, hstr⟩ := h.str
  have hsize := h.size
  rw [hstr, List.length_append, List.length_cons] at hsize
  omega

/-- A further token for a line: it fits, or its NUL is stored behind the buffer. -/
theorem IsupportSend.Holds.keep {st : IsupportSend} {line : List Bytes} {token : Bytes}
    (h : st.Holds line) (htoken : Sendable token)
    (hkeep : ¬ (st.tc + 1 = ISUPPORT_MAX ∨ ISUPPORT_MAXLEN ≤ st.slen + token.length)) :
    ((lineText (line ++ [token])).length < ISUPPORT_MAXLEN →
      (sendToken st token).Holds (line ++ [token])) ∧
    (¬ (lineText (line ++ [token])).length < ISUPPORT_MAXLEN →
      ISUPPORT_MAXLEN < (sendToken st token).str.length) := by
  obtain ⟨rest, hstr⟩ := h.str
  have hsize := h.size
  have hslen := h.slen
  have hline := h.ne_nil
  have hlength : (lineText (line ++ [token])).length = st.slen + (token.length + 1) := by
    rw [lineText_concat hline, List.length_append, List.length_cons, hslen]
  rw [sendToken_keep hkeep, if_pos h.slen_ne_zero]
  constructor
  · intro hfits
    refine ⟨hlength.symm, ⟨rest.drop (token.length + 1), ?_⟩, ?_, ?_, ?_⟩
    · dsimp only
      rw [hslen, hstr, storeAt_append, lineText_concat hline]
      simp
    · dsimp only
      rw [length_storeAt]
      · exact hsize
      · simp only [List.length_append, List.length_cons, List.length_nil]
        omega
    · intro t ht
      rcases List.mem_append.1 ht with ht | ht
      · exact h.texts t ht
      · rw [List.mem_singleton.1 ht]
        exact htoken.text
    · rw [lineText_concat hline]
      simp
  · intro hfull
    have hshort := h.length_lt
    dsimp only
    rw [length_storeAt_eq_max (by omega)]
    simp only [List.length_append, List.length_cons, List.length_nil]
    omega

/-- The loop and the remnants, from the first token of a line on. -/
theorem sendRest_foldl {tokens : List Bytes} {st : IsupportSend} {line : List Bytes}
    (h : st.Holds line) (htokens : ∀ token ∈ tokens, Sendable token) :
    ((∀ l ∈ packFrom line st.tc tokens, (lineText l).length ≠ ISUPPORT_MAXLEN) →
      (tokens.foldl sendToken st).str.length = ISUPPORT_MAXLEN ∧
      (sendRest (tokens.foldl sendToken st)).sent =
        st.sent ++ (packFrom line st.tc tokens).map lineText) ∧
    (∀ l ∈ packFrom line st.tc tokens, (lineText l).length = ISUPPORT_MAXLEN →
      ISUPPORT_MAXLEN < (tokens.foldl sendToken st).str.length) := by
  have hline := h.ne_nil
  have hlt := h.length_lt
  induction tokens generalizing st line with
  | nil =>
    rw [packFrom, if_neg hline, List.foldl_nil]
    constructor
    · intro _
      refine ⟨h.size, ?_⟩
      rw [sendRest, if_pos h.slen_ne_zero, h.sent]
      rfl
    · intro l hl hfull
      rw [List.mem_singleton.1 hl] at hfull
      omega
  | cons token tokens ih =>
    have htoken := htokens token List.mem_cons_self
    have hrest := fun t ht => htokens t (List.mem_cons_of_mem _ ht)
    rw [List.foldl_cons, packFrom, ← h.slen]
    by_cases hflush : st.tc + 1 = ISUPPORT_MAX ∨ ISUPPORT_MAXLEN ≤ st.slen + token.length
    · -- the line is sent, and the token is the first one of the next
      have hnext := holds_first h.size htoken 0 (st.sent ++ [strAt st.str])
      obtain ⟨hgood, hbad⟩ := ih hnext hrest (by simp) hnext.length_lt
      rw [if_pos hflush, sendToken_flush hflush]
      constructor
      · intro hne
        obtain ⟨hsize, hsent⟩ := hgood fun l hl => hne l (List.mem_cons_of_mem _ hl)
        refine ⟨hsize, ?_⟩
        rw [hsent, h.sent]
        simp
      · intro l hl hfull
        rcases List.mem_cons.1 hl with rfl | hl
        · omega
        · exact hbad l hl hfull
    · obtain ⟨hfits, hover⟩ := h.keep htoken hflush
      rw [if_neg hflush]
      by_cases hroom : (lineText (line ++ [token])).length < ISUPPORT_MAXLEN
      · have htc : (sendToken st token).tc = st.tc + 1 := by rw [sendToken_keep hflush]
        have hsame : (sendToken st token).sent = st.sent := by rw [sendToken_keep hflush]
        obtain ⟨hgood, hbad⟩ := ih (hfits hroom) hrest (by simp) hroom
        rw [htc, hsame] at hgood
        rw [htc] at hbad
        exact ⟨hgood, hbad⟩
      · have hlonger := (hover hroom).trans_le (length_le_foldl_sendToken _ tokens)
        -- the blank was not counted, so that the line has all of the characters
        have hexact : (lineText (line ++ [token])).length = ISUPPORT_MAXLEN := by
          rw [not_or] at hflush
          have hslen := h.slen
          rw [lineText_concat hline, List.length_append, List.length_cons] at hroom ⊢
          omega
        constructor
        · intro hne
          exact absurd hexact (hne _ (mem_packFrom_of_full hexact.ge _ _))
        · exact fun _ _ _ => hlonger

/-! ### All of it -/

/-- Every token once, in order, in lines of tokens with blanks between them; and the buffer is as
long as it was. -/
structure SendsAll (tokens : List Bytes) (st : IsupportSend) : Prop where
  inside : st.str.length = ISUPPORT_MAXLEN
  lines : ∃ lines : List (List Bytes), lines.flatten = tokens ∧
    (∀ line ∈ lines, line ≠ [] ∧ line.length ≤ ISUPPORT_MAX) ∧ st.sent = lines.map lineText

/-- Lengths, with one for each blank or end of a line. -/
def weight (tokens : List Bytes) : ℕ := (tokens.map fun token => token.length + 1).sum

theorem weight_lineText {line : List Bytes} (h : line ≠ []) :
    (lineText line).length + 1 = weight line := by
  cases line with
  | nil => exact absurd rfl h
  | cons first line =>
    induction line generalizing first with
    | nil => simp [lineText, weight]
    | cons token line ih =>
      have hline := ih (first ++ blank :: token) (by simp)
      simp only [lineText, joined_cons, weight, List.map_cons, List.sum_cons, List.length_append,
        List.length_cons] at hline ⊢
      omega

theorem weight_lines {lines : List (List Bytes)} (h : ∀ line ∈ lines, line ≠ []) :
    weight (lines.map lineText) = weight lines.flatten := by
  induction lines with
  | nil => rfl
  | cons line lines ih =>
    have hline := weight_lineText (h line List.mem_cons_self)
    have hlines := ih fun l hl => h l (List.mem_cons_of_mem _ hl)
    simp only [weight, List.map_cons, List.sum_cons, List.flatten_cons, List.map_append,
      List.sum_append] at hline hlines ⊢
    omega

theorem SendsAll.weight_eq {tokens : List Bytes} {st : IsupportSend} (h : SendsAll tokens st) :
    weight st.sent = weight tokens := by
  obtain ⟨lines, hflatten, hlines, hsent⟩ := h.lines
  rw [hsent, weight_lines fun line hline => (hlines line hline).1, hflatten]

/-- The first token that is not empty. -/
theorem sendToken_first {str token : Bytes} {tc : ℕ} (htoken : Sendable token)
    (htc : tc + 1 < ISUPPORT_MAX) :
    sendToken ⟨str, 0, tc, []⟩ token =
      ⟨storeAt 0 (token ++ [0]) str, token.length, tc + 1, []⟩ := by
  have hshort := htoken.short
  rw [sendToken_keep]
  · simp
  · dsimp only
    omega

theorem pack_cons {token : Bytes} (htoken : Sendable token) (tokens : List Bytes) :
    pack (token :: tokens) = packFrom [token] 1 tokens := by
  have hshort := htoken.short
  rw [pack, packFrom, if_neg]
  · rfl
  · simp only [lineText, List.length_nil, ISUPPORT_MAX]
    omega

/-- An empty token that comes first is never sent. -/
theorem not_sendsAll_of_nil {tokens : List Bytes} {junk : Bytes}
    (hjunk : junk.length = ISUPPORT_MAXLEN) (htokens : ∀ token ∈ tokens, Sendable token) :
    ¬ SendsAll ([] :: tokens) (sendRest (([] :: tokens).foldl sendToken ⟨junk, 0, 0, []⟩)) := by
  intro h
  have hweight := h.weight_eq
  have hfirst : sendToken ⟨junk, 0, 0, []⟩ [] = ⟨storeAt 0 [0] junk, 0, 1, []⟩ := by
    rw [sendToken_keep (by simp [ISUPPORT_MAX, ISUPPORT_MAXLEN])]
    rfl
  have hstore : (storeAt 0 [0] junk).length = ISUPPORT_MAXLEN := by
    rw [length_storeAt]
    · exact hjunk
    · rw [hjunk]
      decide
  rw [List.foldl_cons, hfirst] at h hweight
  cases tokens with
  | nil => simp [sendRest, weight] at hweight
  | cons token tokens =>
    have htoken := htokens token List.mem_cons_self
    have hrest := fun t ht => htokens t (List.mem_cons_of_mem _ ht)
    rw [List.foldl_cons, sendToken_first htoken (by decide)] at h hweight
    have hholds := holds_first hstore htoken 2 []
    obtain ⟨hgood, hbad⟩ := sendRest_foldl hholds hrest
    have hne : ∀ l ∈ packFrom [token] 2 tokens, (lineText l).length ≠ ISUPPORT_MAXLEN := by
      intro l hl hfull
      have hlonger := hbad l hl hfull
      have hinside := h.inside
      rw [sendRest_str] at hinside
      exact hlonger.ne' hinside
    have hlines := packFrom_size (show [token] ≠ [] by simp) (show [token].length ≤ 2 + 1 by simp)
      (by decide) tokens
    rw [(hgood hne).2, List.nil_append, weight_lines fun l hl => (hlines l hl).1,
      flatten_packFrom] at hweight
    simp [weight] at hweight

theorem sendsAll_iff {tokens : List Bytes} {junk : Bytes} (hjunk : junk.length = ISUPPORT_MAXLEN)
    (htokens : ∀ token ∈ tokens, Sendable token) :
    SendsAll tokens (sendRest (tokens.foldl sendToken ⟨junk, 0, 0, []⟩)) ↔
      ∀ line ∈ pack tokens, (lineText line).length ≠ ISUPPORT_MAXLEN := by
  cases tokens with
  | nil =>
    refine iff_of_true ⟨hjunk, [], rfl, by simp, rfl⟩ ?_
    intro line hline
    exact absurd hline List.not_mem_nil
  | cons token tokens =>
    have htoken := htokens token List.mem_cons_self
    have hrest := fun t ht => htokens t (List.mem_cons_of_mem _ ht)
    have hholds := holds_first hjunk htoken 1 []
    obtain ⟨hgood, hbad⟩ := sendRest_foldl hholds hrest
    rw [List.foldl_cons, sendToken_first htoken (by decide), pack_cons htoken]
    constructor
    · intro h line hline hfull
      have hlonger := hbad line hline hfull
      have hinside := h.inside
      rw [sendRest_str] at hinside
      exact hlonger.ne' hinside
    · intro hne
      obtain ⟨hsize, hsent⟩ := hgood hne
      refine ⟨by rw [sendRest_str]; exact hsize, packFrom [token] 1 tokens, ?_, ?_, hsent⟩
      · exact flatten_packFrom _ _ _
      · exact packFrom_size (by simp) (by simp) (by decide) tokens

/-- Behind the first entry, no token is empty. -/
theorem sendable_tail {ip : Isupport} {list : List Isupport} (h : Headed (ip :: list))
    (privs : ℕ → PrivView) : ∀ token ∈ list.map (Isupport.token privs), Sendable token := by
  intro token htoken
  obtain ⟨ip2, hip2, rfl⟩ := List.mem_map.1 htoken
  obtain ⟨htext, hshort, hname⟩ := ip2.token_spec privs
  refine ⟨fun hnil => ?_, htext, hshort⟩
  rw [hnil, List.prefix_nil] at hname
  exact ((List.pairwise_cons.1 h).1 ip2 hip2).2 hname

/-- The list is in order in every state of a run exactly if no name that is cut off clashes with
one on the list. And for every list that comes about, all tokens are sent exactly if none is empty
and no line that the loop puts together has all the characters of the buffer: the blank in front of
a token is not counted when the loop tests if there is room. -/
theorem isupport_iff {calls : List IsupportCall} {s : IsupportState}
    (hrun : Run.run IsupportState.step ⟨[], 0⟩ calls = some s) :
    ((∀ before behind s', calls = before ++ behind →
        Run.run IsupportState.step ⟨[], 0⟩ before = some s' → Ordered s'.list) ↔
      Run.Along IsupportState.step NameFits ⟨[], 0⟩ calls) ∧
    ∀ (privs : ℕ → PrivView) (junk : Bytes), junk.length = ISUPPORT_MAXLEN →
      (SendsAll (s.list.map (Isupport.token privs)) (sendIsupport privs s.list junk) ↔
        [] ∉ s.list.map (Isupport.token privs) ∧
          ∀ line ∈ pack (s.list.map (Isupport.token privs)),
            (lineText line).length ≠ ISUPPORT_MAXLEN) := by
  constructor
  · have hstart : Ordered (IsupportState.mk [] 0).list := ⟨List.Pairwise.nil, List.Pairwise.nil⟩
    refine Run.forall_reached_iff (I := fun _ => True) (fun _ _ _ _ _ => trivial) ?_ trivial hstart
      hrun
    rintro s (⟨name, arg⟩ | ip) s' - h hs'
    · obtain rfl := Option.some.inj hs'
      exact ordered_add h name arg
    · simp only [IsupportState.step] at hs'
      split at hs'
      · obtain rfl := Option.some.inj hs'
        exact iff_of_true (h.del ip) trivial
      · cases hs'
  · intro privs junk hjunk
    have hheaded := headed_of_run hrun
    unfold sendIsupport
    cases hlist : s.list with
    | nil => simpa using @sendsAll_iff [] junk hjunk (by simp)
    | cons ip list =>
      rw [hlist] at hheaded
      have htail := sendable_tail hheaded privs
      rw [List.map_cons]
      by_cases hnil : ip.token privs = []
      · rw [hnil]
        refine iff_of_false (not_sendsAll_of_nil hjunk htail) fun h => ?_
        exact h.1 List.mem_cons_self
      · have hip : Sendable (ip.token privs) := by
          obtain ⟨htext, hshort, -⟩ := ip.token_spec privs
          exact ⟨hnil, htext, hshort⟩
        have hall : ∀ token ∈ ip.token privs :: list.map (Isupport.token privs),
            Sendable token := by
          intro token htoken
          rcases List.mem_cons.1 htoken with rfl | htoken
          · exact hip
          · exact htail token htoken
        rw [sendsAll_iff hjunk hall]
        exact ⟨fun h => ⟨fun hmem => (hall [] hmem).ne_nil rfl, h⟩, fun h => h.2⟩

/-- Two features. -/
theorem isupport_iff_two :
    SendsAll [[65], [66, equalsSign, 98]] (sendIsupport (fun _ => .num 0)
      (addIsupport (addIsupport ⟨[], 0⟩ [66] (.str [98])) [65] .none).list
      (List.replicate ISUPPORT_MAXLEN 1)) := by
  have h := @isupport_iff [.add [66] (.str [98]), .add [65] .none] _ rfl
  exact (h.2 (fun _ => .num 0) (List.replicate ISUPPORT_MAXLEN 1) (by simp)).2
    ⟨by decide, by decide⟩

/-- A name of 32 characters that is added twice is there twice; and a line of 300 characters, the
token of 252 with one of 47, has its NUL behind the buffer. -/
theorem isupport_fails :
    (∃ calls s, Run.run IsupportState.step ⟨[], 0⟩ calls = some s ∧ ¬ Ordered s.list) ∧
    ∃ calls s junk, Run.run IsupportState.step ⟨[], 0⟩ calls = some s ∧
      junk.length = ISUPPORT_MAXLEN ∧ Ordered s.list ∧
      ∀ privs, ¬ SendsAll (s.list.map (Isupport.token privs)) (sendIsupport privs s.list junk) := by
  constructor
  · have hlong : ¬ (addIsupport (addIsupport ⟨[], 0⟩ (List.replicate 32 65) .none)
        (List.replicate 32 65) .none).list.Pairwise fun a b => sameCase a.name b.name = false := by
      decide
    exact ⟨[.add (List.replicate 32 65) .none, .add (List.replicate 32 65) .none], _, rfl,
      fun h => hlong h.distinct⟩
  · have horder : (addIsupport (addIsupport ⟨[], 0⟩ [65] (.str (List.replicate 250 98))) [66]
        (.str (List.replicate 45 98))).list.Pairwise
          fun a b => caseKey a.name < caseKey b.name := by
      decide
    have hover : (sendIsupport (fun _ => .num 0) (addIsupport (addIsupport ⟨[], 0⟩ [65]
        (.str (List.replicate 250 98))) [66] (.str (List.replicate 45 98))).list
        (List.replicate ISUPPORT_MAXLEN 1)).str.length = 301 := by
      decide +kernel
    refine ⟨[.add [65] (.str (List.replicate 250 98)), .add [66] (.str (List.replicate 45 98))], _,
      List.replicate ISUPPORT_MAXLEN 1, rfl, by simp, ordered_iff.2 horder, fun privs h => ?_⟩
    -- no token of these is a privilege
    have hinside : (sendIsupport (fun _ => .num 0) (addIsupport (addIsupport ⟨[], 0⟩ [65]
        (.str (List.replicate 250 98))) [66] (.str (List.replicate 45 98))).list
        (List.replicate ISUPPORT_MAXLEN 1)).str.length = ISUPPORT_MAXLEN := h.inside
    rw [hover] at hinside
    exact absurd hinside (by decide)

end Ithildin
