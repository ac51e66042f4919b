import Ithildin.Match
import Ithildin.Lib.Run
import Mathlib.Logic.Function.Basic

/-!
# Messages and message sets

The table of messages, and sets with a text for each of them. `create_message_set` takes the formats
from its own block of the configuration, `create_message` those of the first `message-set` block for
all sets; a message named "000" has number 0, which the loops over the table pass over; and the
memory that is cleared when the tables grow is behind them.

* `Messages`: the table and the sets, with what their memory holds;
* `createMessage`, `createMessageSet`, `destroyMessage`: the functions of `send.c`;
* `Sound`: each set has its own text for each message, and no access was wrong;
* `sound_of_run_iff`: just the steps that are `Suitable` keep it.

`compat` stands for `fmtcheck`, which returns its first argument if the formats match.
-/

namespace Ithildin

/-- The data entries of a block, with their names. `conf_parse` leaves no text empty. -/
abbrev MessageConf := List (Bytes × {s : Bytes // s ≠ []})

/-- `message_t`. -/
structure Message where
  name : Option Bytes
  num : ℤ
  defaultFmt : Option Bytes
  deriving DecidableEq

/-- What memory a pointer in a set is in: not written yet, NULL, freed, or a text. -/
inductive TextPtr
  | junk
  | null
  | freed
  | text (s : Bytes)
  deriving DecidableEq

/-- `free` may be called with it. -/
def TextPtr.freeable : TextPtr → Bool
  | .null | .text _ => true
  | .junk | .freed => false

/-- `message_set_t`, with the pointers there is room for, and the block it was filled from. -/
structure MessageSet where
  name : Bytes
  msgs : ℕ → TextPtr
  size : ℕ
  conf : MessageConf

/-- A slot is written. -/
def MessageSet.put (msp : MessageSet) (i : ℕ) (s : TextPtr) : MessageSet :=
  { msp with msgs := Function.update msp.msgs i s }

theorem MessageSet.put_msgs_self (msp : MessageSet) (i : ℕ) (s : TextPtr) :
    (msp.put i s).msgs i = s :=
  Function.update_self ..

theorem MessageSet.put_msgs_of_ne (msp : MessageSet) {i j : ℕ} (s : TextPtr) (h : j ≠ i) :
    (msp.put i s).msgs j = msp.msgs j :=
  Function.update_of_ne h ..

/-- `ircd.messages`, the `message-set` blocks of `*ircd.confhead`, and whether there was an access
outside a table, or to a pointer that is none. -/
structure Messages where
  msgs : ℕ → Option Message
  count : ℕ
  size : ℕ
  sets : List MessageSet
  blocks : List MessageConf
  fault : Bool

/-- `sizeof(message_t)`, on a machine with pointers of eight bytes. -/
def sizeofMessage : ℕ := 24

/-- `sizeof(char *)`. -/
def sizeofPointer : ℕ := 8

/-- `conf_find_entry`, at one level. -/
def confFindEntry (name : Bytes) (conf : MessageConf) : Option Bytes :=
  (conf.find? fun ent => sameCase ent.1 name).map fun ent => ent.2.1

namespace Messages

variable (compat : Bytes → Bytes → Bool)

/-- `fmtcheck`. -/
def fmtcheck (sus fmt : Bytes) : Bytes := if compat sus fmt then sus else fmt

/-- The text that a block of the configuration gives a message. -/
def textIn (conf : MessageConf) (name fmt : Bytes) : Bytes :=
  match confFindEntry name conf with
  | none => fmt
  | some sus => fmtcheck compat sus fmt

/-- `set_message_in_set`; the mark says that the slot is outside the array. -/
def setMessageInSet (num : ℕ) (msp : MessageSet) (fmt : Bytes) (sus : Option Bytes) :
    MessageSet × Bool :=
  let s := match sus with
    | some sus => fmtcheck compat sus fmt
    | none => fmt
  if s = [] then (msp, false)
  else (msp.put num (.text s), decide (msp.size ≤ num))

variable (m : Messages)

/-- The number of a message, as far as the loops go over them. -/
def numOf (i : ℕ) : ℤ := ((m.msgs i).map Message.num).getD 0

/-- The name and the default format of a message. -/
def live (i : ℕ) : Option (Bytes × Bytes) :=
  (m.msgs i).bind fun mp => mp.name.bind fun name => mp.defaultFmt.map fun fmt => (name, fmt)

/-- The first `message-set` block. -/
def firstConf : MessageConf := m.blocks.headD []

/-- The messages that `create_message_set` goes through. -/
def numbered : List ℕ := (List.range m.count).filter fun i => decide (0 < m.numOf i)

/-- `find_message`. -/
def findMessage (name : Bytes) : Option ℕ :=
  (List.range m.count).find? fun i =>
    ((m.msgs i).bind Message.name).any fun name' => sameCase name' name

/-- `find_message_set`. -/
def findMessageSet (name : Bytes) : Option MessageSet :=
  m.sets.find? fun msp => sameCase msp.name name

/-- Something is done to all sets. -/
def eachSet (f : MessageSet → MessageSet × Bool) : Messages :=
  { m with
    sets := m.sets.map fun msp => (f msp).1
    fault := m.fault || m.sets.any fun msp => (f msp).2 }

/-- The old texts of a set are freed. -/
def clearSet (msp : MessageSet) : MessageSet × Bool :=
  ({ msp with msgs := fun i => if i ∈ m.numbered then .freed else msp.msgs i },
    m.numbered.any fun i => decide (msp.size ≤ i) || !(msp.msgs i).freeable)

/-- A slot of a set is filled in. -/
def fillSlot (conf : MessageConf) (r : MessageSet × Bool) (i : ℕ) : MessageSet × Bool :=
  match m.live i with
  | some (name, fmt) =>
      let r' := setMessageInSet compat i r.1 fmt (confFindEntry name conf)
      (r'.1, r.2 || r'.2)
  | none => (r.1, true)

/-- A set is filled in. -/
def fillSet (msp : MessageSet) (conf : MessageConf) : MessageSet × Bool :=
  m.numbered.foldl (m.fillSlot compat conf) ({ msp with conf := conf }, false)

/-- The first set stays the first. -/
def insertSet (msp : MessageSet) : List MessageSet → List MessageSet
  | [] => [msp]
  | first :: rest => first :: msp :: rest

/-- `create_message_set`. -/
def createMessageSet (name : Bytes) (conf : MessageConf) : Messages :=
  match m.findMessageSet name with
  | some msp =>
      let cleared := m.clearSet msp
      let filled := m.fillSet compat cleared.1 conf
      { m with
        sets := insertSet filled.1 (m.sets.eraseP fun msp => sameCase msp.name name)
        fault := m.fault || cleared.2 || filled.2 }
  | none =>
      let filled := m.fillSet compat ⟨name, fun _ => .junk, m.size, []⟩ conf
      { m with
        sets := insertSet filled.1 m.sets
        fault := m.fault || filled.2 }

/-- Three digits. -/
def isNumeric (name : Bytes) : Bool :=
  name.length == 3 && name.all fun c => decide (48 ≤ c ∧ c ≤ 57)

/-- `atoi`, on digits. -/
def atoi (name : Bytes) : ℕ := name.foldl (fun n c => n * 10 + (c.toNat - 48)) 0

/-- The first hole behind the numerics. -/
def hole : Option ℕ :=
  ((List.range m.count).drop 1000).find? fun i => decide (m.numOf i = -1)

/-- 512 more slots. What `memset` clears begins as many times the size of an element farther. -/
def grow : Messages :=
  let size := m.size + 512
  let start := sizeofMessage * (size - 512)
  { m with
    msgs := fun i =>
      if start ≤ i ∧ i < start + 512 then some ⟨none, 0, none⟩
      else if m.size ≤ i then none else m.msgs i
    size := size
    fault := m.fault || decide (size < start + 512) }.eachSet fun msp =>
      let start := sizeofPointer * (size - 512)
      ({ msp with
        msgs := fun i =>
          if start ≤ i ∧ i < start + 512 then .null
          else if msp.size ≤ i then .junk else msp.msgs i
        size := size }, decide (size < start + 512))

/-- The next number is used. -/
def nextNum : ℕ × Messages := (m.count, { m with count := m.count + 1 })

/-- A number for a new message. -/
def allot (name : Bytes) : ℕ × Messages :=
  if isNumeric name then (atoi name, m)
  else if m.count = m.size then
    match m.hole with
    | some i => (i, m)
    | none => m.grow.nextNum
  else m.nextNum

/-- A message is put in its slot, and filled into all sets. -/
def place (num : ℕ) (name fmt : Bytes) : Messages :=
  { m with msgs := Function.update m.msgs num (some ⟨some name, num, some fmt⟩) }.eachSet fun msp =>
    setMessageInSet compat num msp fmt (confFindEntry name m.firstConf)

/-- `create_message`; an empty text stands for NULL too. -/
def createMessage (name fmt : Bytes) : ℤ × Messages :=
  if fmt = [] ∨ name = [] then (-1, m)
  else if (m.findMessage name).isSome then (-1, m)
  else
    let r := m.allot name
    (r.1, r.2.place compat r.1 name fmt)

/-- A message goes, from the table and from all sets. -/
def unset (i : ℕ) : Messages :=
  { m with msgs := Function.update m.msgs i (some ⟨none, -1, none⟩) }.eachSet fun msp =>
    (msp.put i .null, decide (msp.size ≤ i) || !(msp.msgs i).freeable)

/-- `destroy_message`. -/
def destroyMessage (num : ℤ) : Messages :=
  if num < 0 ∨ m.size ≤ num.toNat ∨ m.msgs num.toNat = none then { m with fault := true }
  else m.unset num.toNat

/-- The table at the start. -/
def start : Messages := ⟨fun _ => some ⟨none, 0, none⟩, 1000, 2048, [], [], false⟩

/-- Another configuration is read, or one of the three functions is called. -/
inductive Action
  | load (blocks : List MessageConf)
  | createMessage (name fmt : Bytes)
  | createMessageSet (name : Bytes) (conf : MessageConf)
  | destroyMessage (num : ℤ)

/-- A step. -/
def step (m : Messages) : Action → Option Messages
  | .load blocks => some { m with blocks := blocks }
  | .createMessage name fmt => some (m.createMessage compat name fmt).2
  | .createMessageSet name conf => some (m.createMessageSet compat name conf)
  | .destroyMessage num => some (m.destroyMessage num)

/-- No access was wrong, and each set has the text for each message that its own block gives. -/
structure Sound : Prop where
  safe : m.fault = false
  texts : ∀ msp ∈ m.sets, ∀ i, ∀ p ∈ m.live i, msp.msgs i = .text (textIn compat msp.conf p.1 p.2)

/-- The table is to grow for the message. -/
def full (name : Bytes) : Prop := isNumeric name = false ∧ m.count = m.size ∧ m.hole = none

/-- A new message has the same text by the first block and by those of all sets, and there is room
for it. A set that is created finds no message with number 0, or the text of that stays. A slot that
is destroyed is in the table, and has been filled or cleared in all sets. -/
def Suitable (m : Messages) : Action → Prop
  | .load _ => True
  | .createMessage name fmt => fmt ≠ [] → name ≠ [] → m.findMessage name = none →
      ¬ m.full name ∧
        ∀ msp ∈ m.sets, textIn compat m.firstConf name fmt = textIn compat msp.conf name fmt
  | .createMessageSet name conf => ∀ p ∈ m.live 0, ∃ msp ∈ m.findMessageSet name,
      textIn compat msp.conf p.1 p.2 = textIn compat conf p.1 p.2
  | .destroyMessage num =>
      (0 ≤ num ∧ num.toNat < m.size) ∧ ∀ msp ∈ m.sets, (msp.msgs num.toNat).freeable = true

instance (name : Bytes) : Decidable (m.full name) :=
  inferInstanceAs (Decidable (isNumeric name = false ∧ m.count = m.size ∧ m.hole = none))

instance (act : Action) : Decidable (m.Suitable compat act) :=
  match act with
  | .load _ => inferInstanceAs (Decidable True)
  | .createMessage name fmt => inferInstanceAs
      (Decidable (fmt ≠ [] → name ≠ [] → m.findMessage name = none → ¬ m.full name ∧
        ∀ msp ∈ m.sets, textIn compat m.firstConf name fmt = textIn compat msp.conf name fmt))
  | .createMessageSet name conf => inferInstanceAs
      (Decidable (∀ p ∈ m.live 0, ∃ msp ∈ m.findMessageSet name,
        textIn compat msp.conf p.1 p.2 = textIn compat conf p.1 p.2))
  | .destroyMessage num => inferInstanceAs
      (Decidable ((0 ≤ num ∧ num.toNat < m.size) ∧
        ∀ msp ∈ m.sets, (msp.msgs num.toNat).freeable = true))

/-! ### What every step keeps -/

/-- The table: messages have their numbers, and nothing else has one. -/
structure Shape : Prop where
  count_ge : 1000 ≤ m.count
  count_le : m.count ≤ m.size
  written : ∀ i < m.size, m.msgs i ≠ none
  live : ∀ i, ∀ p ∈ m.live i, i < m.count ∧ m.numOf i = i ∧ p.2 ≠ []
  dead : ∀ i, m.live i = none → m.numOf i ≤ 0
  sizes : ∀ msp ∈ m.sets, msp.size = m.size

section
variable {compat} {m} {msp : MessageSet} {name fmt : Bytes} {conf : MessageConf} {num i : ℕ}

theorem confFindEntry_ne_nil {sus : Bytes} (h : confFindEntry name conf = some sus) : sus ≠ [] := by
  obtain ⟨ent, -, rfl⟩ := Option.map_eq_some_iff.mp h
  exact ent.2.2

theorem textIn_ne_nil (hfmt : fmt ≠ []) : textIn compat conf name fmt ≠ [] := by
  rw [textIn]
  split
  · exact hfmt
  · rename_i sus hsus
    rw [fmtcheck]
    split
    · exact confFindEntry_ne_nil hsus
    · exact hfmt

theorem setMessageInSet_eq (hfmt : fmt ≠ []) :
    setMessageInSet compat num msp fmt (confFindEntry name conf) =
      (msp.put num (.text (textIn compat conf name fmt)), decide (msp.size ≤ num)) := by
  have hne : textIn compat conf name fmt ≠ [] := textIn_ne_nil hfmt
  unfold setMessageInSet
  unfold textIn at hne ⊢
  revert hne
  cases confFindEntry name conf with
  | none => exact fun hne => if_neg hne
  | some sus => exact fun hne => if_neg hne

theorem Shape.mem_numbered (h : m.Shape) : i ∈ m.numbered ↔ (m.live i).isSome ∧ i ≠ 0 := by
  rw [numbered, List.mem_filter, List.mem_range, decide_eq_true_eq]
  cases hlive : m.live i with
  | none => simp [Int.not_lt.mpr (h.dead i hlive)]
  | some p =>
    obtain ⟨hlt, hnum, -⟩ := h.live i p hlive
    simp [hlt, hnum, Nat.pos_iff_ne_zero]

/-- What a set gets for a message. -/
def textOf (compat : Bytes → Bytes → Bool) (m : Messages) (conf : MessageConf) (i : ℕ) : Bytes :=
  ((m.live i).map fun p => textIn compat conf p.1 p.2).getD []

theorem Shape.fillSlot_eq (h : m.Shape) (hsize : msp.size = m.size) (hi : i ∈ m.numbered) :
    m.fillSlot compat conf (msp, false) i =
      (msp.put i (.text (m.textOf compat conf i)), false) := by
  obtain ⟨hlive, -⟩ := h.mem_numbered.mp hi
  obtain ⟨⟨name, fmt⟩, hp⟩ := Option.isSome_iff_exists.mp hlive
  obtain ⟨hlt, -, hfmt⟩ := h.live i _ hp
  have hroom : decide (msp.size ≤ i) = false :=
    decide_eq_false (Nat.not_le.mpr (hsize ▸ Nat.lt_of_lt_of_le hlt h.count_le))
  rw [fillSlot, hp, textOf, hp]
  dsimp only
  rw [setMessageInSet_eq hfmt, hroom]
  rfl

/-- The slots of a list of messages are filled, and no others. -/
theorem Shape.foldl_fillSlot (h : m.Shape) {l : List ℕ} (hl : ∀ i ∈ l, i ∈ m.numbered)
    (hsize : msp.size = m.size) :
    l.foldl (m.fillSlot compat conf) (msp, false) =
      ({ msp with
        msgs := fun i =>
          if i ∈ l then .text (m.textOf compat conf i) else msp.msgs i }, false) := by
  induction l generalizing msp with
  | nil => simp
  | cons j l ih =>
    rw [List.foldl_cons, h.fillSlot_eq hsize (hl j List.mem_cons_self)]
    refine (@ih (msp.put j _) (fun i hi => hl i (List.mem_cons_of_mem j hi)) hsize).trans ?_
    refine congrArg (·, false) ?_
    refine congrArg (fun msgs => { msp with msgs := msgs }) ?_
    funext i
    by_cases hil : i ∈ l
    · rw [if_pos hil, if_pos (List.mem_cons_of_mem j hil)]
    · by_cases hij : i = j
      · subst hij
        rw [if_neg hil, if_pos List.mem_cons_self, MessageSet.put_msgs_self]
      · rw [if_neg hil, MessageSet.put_msgs_of_ne _ _ hij, if_neg (by simp [hij, hil])]

theorem Shape.fillSet_eq (h : m.Shape) (hsize : msp.size = m.size) :
    m.fillSet compat msp conf =
      ({ msp with
        msgs := fun i => if i ∈ m.numbered then .text (m.textOf compat conf i) else msp.msgs i
        conf := conf }, false) :=
  @foldl_fillSlot _ m { msp with conf := conf } conf h m.numbered (fun _ hi => hi) hsize

theorem mem_insertSet {l : List MessageSet} {msp' : MessageSet} :
    msp' ∈ insertSet msp l ↔ msp' = msp ∨ msp' ∈ l := by
  cases l with
  | nil => rw [insertSet, List.mem_singleton, or_iff_left List.not_mem_nil]
  | cons first rest =>
    rw [insertSet, List.mem_cons, List.mem_cons, List.mem_cons]
    exact or_left_comm

theorem findMessageSet_mem (h : m.findMessageSet name = some msp) : msp ∈ m.sets :=
  List.mem_of_find?_eq_some h

/-! ### New messages -/

theorem atoi_lt (h : isNumeric name = true) : atoi name < 1000 := by
  rw [isNumeric, Bool.and_eq_true, beq_iff_eq, List.all_eq_true] at h
  obtain ⟨hlength, hdigits⟩ := h
  obtain ⟨a, b, c, rfl⟩ := List.length_eq_three.mp hlength
  have hle : ∀ d ∈ [a, b, c], d.toNat - 48 ≤ 9 := by
    intro d hd
    have hd' := (of_decide_eq_true (hdigits d hd)).2
    have hnat : d.toNat ≤ 57 := hd'
    omega
  have ha := hle a (by simp)
  have hb := hle b (by simp)
  have hc := hle c (by simp)
  simp only [atoi, List.foldl_cons, List.foldl_nil]
  omega

theorem grow_fault (h : 0 < m.size) : m.grow.fault = true := by
  have hbehind : decide (m.size + 512 < sizeofMessage * (m.size + 512 - 512) + 512) = true := by
    rw [decide_eq_true_eq, sizeofMessage]
    omega
  rw [grow, eachSet]
  dsimp only
  rw [hbehind, Bool.or_true, Bool.true_or]

/-- A number is found in the table as it is, unless the table is to grow. -/
theorem Shape.allot_cases (h : m.Shape) (name : Bytes) :
    (m.full name ∧ (m.allot name).2.fault = true) ∨
      (¬ m.full name ∧ ∃ num count, m.allot name = (num, { m with count := count }) ∧
        num < count ∧ m.count ≤ count ∧ count ≤ m.size) := by
  have hcount := h.count_ge
  have hle := h.count_le
  rw [allot, full]
  by_cases hnumeric : isNumeric name = true
  · rw [if_pos hnumeric]
    refine .inr ⟨fun hfull => ?_, atoi name, m.count, rfl, ?_, Nat.le_refl _, hle⟩
    · rw [hnumeric] at hfull
      cases hfull.1
    · exact Nat.lt_of_lt_of_le (atoi_lt hnumeric) hcount
  · rw [if_neg hnumeric]
    by_cases hsize : m.count = m.size
    · rw [if_pos hsize]
      cases hhole : m.hole with
      | none =>
        refine .inl ⟨⟨Bool.eq_false_iff.mpr hnumeric, hsize, rfl⟩, ?_⟩
        dsimp only [nextNum]
        exact grow_fault (by omega)
      | some i =>
        have hfull : ¬ (isNumeric name = false ∧ m.count = m.size ∧ some i = none) :=
          fun hfull => Option.some_ne_none i hfull.2.2
        refine .inr ⟨hfull, i, m.count, rfl, ?_, Nat.le_refl _, hle⟩
        exact List.mem_range.mp (List.mem_of_mem_drop (List.mem_of_find?_eq_some hhole))
    · rw [if_neg hsize]
      refine .inr ⟨fun hfull => hsize hfull.2.1, m.count, m.count + 1, rfl, ?_, ?_, ?_⟩
      · exact Nat.lt_succ_self _
      · exact Nat.le_succ _
      · omega

theorem live_place_self : (m.place compat num name fmt).live num = some (name, fmt) := by
  simp [place, eachSet, live]

theorem live_place_of_ne (h : i ≠ num) : (m.place compat num name fmt).live i = m.live i := by
  simp [place, eachSet, live, Function.update_of_ne h]

theorem numOf_place_self : (m.place compat num name fmt).numOf num = num := by
  simp [place, eachSet, numOf]

theorem numOf_place_of_ne (h : i ≠ num) : (m.place compat num name fmt).numOf i = m.numOf i := by
  simp [place, eachSet, numOf, Function.update_of_ne h]

theorem sets_place (hfmt : fmt ≠ []) : (m.place compat num name fmt).sets =
    m.sets.map fun msp => msp.put num (.text (textIn compat m.firstConf name fmt)) := by
  rw [place, eachSet]
  refine List.map_congr_left fun msp _ => ?_
  rw [setMessageInSet_eq hfmt]

theorem Shape.place_fault (h : m.Shape) (hfmt : fmt ≠ []) (hnum : num < m.count) :
    (m.place compat num name fmt).fault = m.fault := by
  rw [place, eachSet]
  dsimp only
  have hany : (m.sets.any fun msp =>
      (setMessageInSet compat num msp fmt (confFindEntry name m.firstConf)).2) = false := by
    rw [List.any_eq_false]
    intro msp hmsp
    rw [setMessageInSet_eq hfmt, h.sizes msp hmsp]
    have hle := h.count_le
    simp only [decide_eq_true_eq]
    omega
  rw [hany, Bool.or_false]

theorem Shape.place (h : m.Shape) (hfmt : fmt ≠ []) (hnum : num < m.count) :
    (m.place compat num name fmt).Shape where
  count_ge := h.count_ge
  count_le := h.count_le
  written j hj := by
    dsimp only [Messages.place, eachSet]
    by_cases hjn : j = num
    · rw [hjn, Function.update_self]
      exact Option.some_ne_none _
    · rw [Function.update_of_ne hjn]
      exact h.written j hj
  live j p hp := by
    by_cases hjn : j = num
    · subst hjn
      rw [live_place_self] at hp
      obtain rfl := Option.some.inj hp
      exact ⟨hnum, numOf_place_self, hfmt⟩
    · rw [live_place_of_ne hjn] at hp
      rw [numOf_place_of_ne hjn]
      exact h.live j p hp
  dead j hj := by
    by_cases hjn : j = num
    · subst hjn
      rw [live_place_self] at hj
      cases hj
    · rw [live_place_of_ne hjn] at hj
      rw [numOf_place_of_ne hjn]
      exact h.dead j hj
  sizes msp hmsp := by
    rw [sets_place hfmt] at hmsp
    obtain ⟨msp', hmsp', rfl⟩ := List.mem_map.mp hmsp
    exact h.sizes msp' hmsp'

/-- The new text is the same for all sets. -/
theorem Sound.place_iff (hs : m.Sound compat) (h : m.Shape) (hfmt : fmt ≠ [])
    (hnum : num < m.count) :
    (m.place compat num name fmt).Sound compat ↔
      ∀ msp ∈ m.sets, textIn compat m.firstConf name fmt = textIn compat msp.conf name fmt := by
  constructor
  · intro hplace msp hmsp
    have htext := hplace.texts _ (sets_place hfmt ▸ List.mem_map_of_mem hmsp) num (name, fmt)
      live_place_self
    rw [MessageSet.put_msgs_self] at htext
    exact TextPtr.text.inj htext
  · intro hsame
    refine ⟨(h.place_fault hfmt hnum).trans hs.safe, fun msp hmsp j p hp => ?_⟩
    rw [sets_place hfmt] at hmsp
    obtain ⟨msp', hmsp', rfl⟩ := List.mem_map.mp hmsp
    by_cases hjn : j = num
    · subst hjn
      rw [live_place_self] at hp
      obtain rfl := Option.some.inj hp
      rw [MessageSet.put_msgs_self]
      exact congrArg TextPtr.text (hsame msp' hmsp')
    · rw [live_place_of_ne hjn] at hp
      rw [MessageSet.put_msgs_of_ne _ _ hjn]
      exact hs.texts msp' hmsp' j p hp

theorem place_of_fault (h : m.fault = true) : (m.place compat num name fmt).fault = true := by
  rw [place, eachSet]
  dsimp only
  rw [h, Bool.true_or]

theorem Shape.withCount {count : ℕ} (h : m.Shape) (hge : m.count ≤ count) (hle : count ≤ m.size) :
    ({ m with count := count } : Messages).Shape where
  count_ge := Nat.le_trans h.count_ge hge
  count_le := hle
  written := h.written
  live i p hp := (h.live i p hp).imp_left fun hlt => Nat.lt_of_lt_of_le hlt hge
  dead := h.dead
  sizes := h.sizes

/-- What `create_message` does: nothing, a wrong access, or a message that is put in its slot. -/
theorem Shape.createMessage_cases (h : m.Shape) (name fmt : Bytes) :
    ((fmt ≠ [] → name ≠ [] → m.findMessage name ≠ none) ∧
        (m.createMessage compat name fmt).2 = m) ∨
      (fmt ≠ [] ∧ name ≠ [] ∧ m.findMessage name = none) ∧
        ((m.full name ∧ (m.createMessage compat name fmt).2.fault = true) ∨
          ¬ m.full name ∧ ∃ num count, num < count ∧ m.count ≤ count ∧ count ≤ m.size ∧
            (m.createMessage compat name fmt).2 =
              ({ m with count := count } : Messages).place compat num name fmt) := by
  rw [createMessage]
  by_cases hempty : fmt = [] ∨ name = []
  · rw [if_pos hempty]
    exact .inl ⟨fun hfmt hname => (hempty.elim hfmt hname).elim, rfl⟩
  · rw [if_neg hempty]
    obtain ⟨hfmt, hname⟩ := not_or.mp hempty
    cases hfind : m.findMessage name with
    | some i => exact .inl ⟨fun _ _ => Option.some_ne_none i, rfl⟩
    | none =>
      rw [if_neg (by simp)]
      refine .inr ⟨⟨hfmt, hname, rfl⟩, ?_⟩
      rcases h.allot_cases name with ⟨hfull, hfault⟩ | ⟨hfull, num, count, heq, hand⟩
      · exact .inl ⟨hfull, place_of_fault hfault⟩
      · refine .inr ⟨hfull, num, count, hand.1, hand.2.1, hand.2.2, ?_⟩
        rw [heq]

/-! ### Sets -/

theorem clearSet_size : (m.clearSet msp).1.size = msp.size := rfl

/-- Texts that are there are freed once. -/
theorem Sound.clearSet_snd (hs : m.Sound compat) (h : m.Shape) (hmsp : msp ∈ m.sets) :
    (m.clearSet msp).2 = false := by
  rw [clearSet, List.any_eq_false]
  intro i hi
  obtain ⟨hlive, -⟩ := h.mem_numbered.mp hi
  obtain ⟨p, hp⟩ := Option.isSome_iff_exists.mp hlive
  have hroom : ¬ msp.size ≤ i := by
    rw [h.sizes msp hmsp]
    exact Nat.not_le.mpr (Nat.lt_of_lt_of_le (h.live i p hp).1 h.count_le)
  rw [hs.texts msp hmsp i p hp, decide_eq_false hroom]
  exact Bool.false_ne_true

/-- A set that is filled in has its own texts, if it has that of the message with number 0. -/
theorem Shape.fillSet_texts (h : m.Shape) (hsize : msp.size = m.size) :
    (∀ i, ∀ p ∈ m.live i,
      (m.fillSet compat msp conf).1.msgs i = .text (textIn compat conf p.1 p.2)) ↔
      ∀ p ∈ m.live 0, msp.msgs 0 = .text (textIn compat conf p.1 p.2) := by
  rw [h.fillSet_eq hsize]
  dsimp only
  have hzero : 0 ∉ m.numbered := fun hmem => (h.mem_numbered.mp hmem).2 rfl
  constructor
  · intro hall p hp
    rw [← hall 0 p hp, if_neg hzero]
  · intro h0 i p hp
    by_cases hi : i = 0
    · subst hi
      rw [if_neg hzero, h0 p hp]
    · rw [if_pos (h.mem_numbered.mpr ⟨hp ▸ rfl, hi⟩), textOf, hp]
      rfl

theorem Shape.withSets {sets : List MessageSet} {fault : Bool} (h : m.Shape)
    (hsizes : ∀ msp ∈ sets, msp.size = m.size) :
    ({ m with sets := sets, fault := fault } : Messages).Shape where
  count_ge := h.count_ge
  count_le := h.count_le
  written := h.written
  live := h.live
  dead := h.dead
  sizes := hsizes

theorem Shape.fillSet_size (h : m.Shape) (hsize : msp.size = m.size) :
    (m.fillSet compat msp conf).1.size = m.size := by
  rw [h.fillSet_eq hsize]
  exact hsize

theorem Shape.fillSet_conf (h : m.Shape) (hsize : msp.size = m.size) :
    (m.fillSet compat msp conf).1.conf = conf := by
  rw [h.fillSet_eq hsize]

theorem Shape.createMessageSet (h : m.Shape) (name : Bytes) (conf : MessageConf) :
    (m.createMessageSet compat name conf).Shape := by
  rw [Messages.createMessageSet]
  split
  · rename_i old hold
    refine h.withSets fun msp hmsp => ?_
    rcases mem_insertSet.mp hmsp with rfl | hrest
    · exact h.fillSet_size (clearSet_size.trans (h.sizes old (findMessageSet_mem hold)))
    · exact h.sizes msp (List.mem_of_mem_eraseP hrest)
  · refine h.withSets fun msp hmsp => ?_
    rcases mem_insertSet.mp hmsp with rfl | hrest
    · exact h.fillSet_size rfl
    · exact h.sizes msp hrest

/-- One set is replaced by, or the others are joined by, one that has been filled in. -/
theorem Sound.withSets_iff {sets : List MessageSet} {fault : Bool} (hs : m.Sound compat)
    (h : m.Shape) (hsize : msp.size = m.size) (hsets : ∀ old ∈ sets, old ∈ m.sets)
    (hfault : fault = false) :
    ({ m with sets := insertSet (m.fillSet compat msp conf).1 sets, fault := fault } :
        Messages).Sound compat ↔
      ∀ p ∈ m.live 0, msp.msgs 0 = .text (textIn compat conf p.1 p.2) := by
  rw [← h.fillSet_texts hsize]
  constructor
  · intro hsound i p hp
    have htext := hsound.texts _ (mem_insertSet.mpr (.inl rfl)) i p hp
    rwa [h.fillSet_conf hsize] at htext
  · intro htexts
    refine ⟨hfault, fun msp' hmsp' i p hp => ?_⟩
    rcases mem_insertSet.mp hmsp' with rfl | hrest
    · rw [h.fillSet_conf hsize]
      exact htexts i p hp
    · exact hs.texts msp' (hsets msp' hrest) i p hp

theorem Sound.createMessageSet_iff (hs : m.Sound compat) (h : m.Shape) :
    (m.createMessageSet compat name conf).Sound compat ↔
      m.Suitable compat (.createMessageSet name conf) := by
  rw [Messages.createMessageSet, Suitable]
  cases hfind : m.findMessageSet name with
  | none =>
    dsimp only
    refine (hs.withSets_iff h rfl (fun _ hold => hold) ?_).trans ?_
    · rw [hs.safe, h.fillSet_eq rfl, Bool.or_false]
    · refine forall₂_congr fun p _ => iff_of_false TextPtr.noConfusion ?_
      rintro ⟨msp, hmsp, -⟩
      cases hmsp
  | some old =>
    have hold := findMessageSet_mem hfind
    have hsize : (m.clearSet old).1.size = m.size := clearSet_size.trans (h.sizes old hold)
    dsimp only
    refine (hs.withSets_iff h hsize (fun _ => List.mem_of_mem_eraseP) ?_).trans ?_
    · rw [hs.safe, hs.clearSet_snd h hold, h.fillSet_eq hsize, Bool.or_false, Bool.or_false]
    · refine forall₂_congr fun p hp => ?_
      have hzero : 0 ∉ m.numbered := fun hmem => (h.mem_numbered.mp hmem).2 rfl
      rw [clearSet]
      dsimp only
      rw [if_neg hzero, hs.texts old hold 0 p hp, TextPtr.text.injEq]
      refine ⟨fun htext => ⟨old, rfl, htext⟩, ?_⟩
      rintro ⟨msp, hmsp, htext⟩
      obtain rfl := Option.some.inj hmsp
      exact htext

/-! ### Messages that go -/

theorem live_unset {j : ℕ} : (m.unset i).live j = if j = i then none else m.live j := by
  dsimp only [unset, eachSet, live]
  by_cases hj : j = i
  · rw [if_pos hj, hj, Function.update_self]
    rfl
  · rw [if_neg hj, Function.update_of_ne hj]

theorem numOf_unset_self : (m.unset i).numOf i = -1 := by simp [unset, eachSet, numOf]

theorem numOf_unset_of_ne {j : ℕ} (h : j ≠ i) : (m.unset i).numOf j = m.numOf j := by
  simp [unset, eachSet, numOf, Function.update_of_ne h]

theorem Shape.unset (h : m.Shape) : (m.unset i).Shape where
  count_ge := h.count_ge
  count_le := h.count_le
  written j hj := by
    dsimp only [Messages.unset, eachSet]
    by_cases hji : j = i
    · rw [hji, Function.update_self]
      exact Option.some_ne_none _
    · rw [Function.update_of_ne hji]
      exact h.written j hj
  live j p hp := by
    rw [live_unset] at hp
    by_cases hji : j = i
    · rw [if_pos hji] at hp
      cases hp
    · rw [if_neg hji] at hp
      rw [numOf_unset_of_ne hji]
      exact h.live j p hp
  dead j hj := by
    rw [live_unset] at hj
    by_cases hji : j = i
    · rw [hji, numOf_unset_self]
      decide
    · rw [if_neg hji] at hj
      rw [numOf_unset_of_ne hji]
      exact h.dead j hj
  sizes msp hmsp := by
    obtain ⟨msp', hmsp', rfl⟩ := List.mem_map.mp hmsp
    exact h.sizes msp' hmsp'

theorem Sound.unset_iff (hs : m.Sound compat) (h : m.Shape) (hi : i < m.size) :
    (m.unset i).Sound compat ↔ ∀ msp ∈ m.sets, (msp.msgs i).freeable = true := by
  have hfault : (m.unset i).fault = false ↔ ∀ msp ∈ m.sets, (msp.msgs i).freeable = true := by
    dsimp only [unset, eachSet]
    rw [hs.safe, Bool.false_or, List.any_eq_false]
    refine forall₂_congr fun msp hmsp => ?_
    rw [h.sizes msp hmsp, decide_eq_false (Nat.not_le.mpr hi), Bool.false_or, Bool.not_eq_true',
      Bool.not_eq_false]
  refine ⟨fun hsound => hfault.mp hsound.safe, fun hall => ⟨hfault.mpr hall, ?_⟩⟩
  intro msp hmsp j p hp
  obtain ⟨msp', hmsp', rfl⟩ := List.mem_map.mp hmsp
  rw [live_unset] at hp
  by_cases hji : j = i
  · rw [if_pos hji] at hp
    cases hp
  · rw [if_neg hji] at hp
    rw [MessageSet.put_msgs_of_ne _ _ hji]
    exact hs.texts msp' hmsp' j p hp

/-! ### Runs -/

/-- The table is in order as long as no access was wrong. -/
def Inv (m : Messages) : Prop := m.fault = false → m.Shape

theorem allot_of_fault (h : m.fault = true) : (m.allot name).2.fault = true := by
  rw [allot]
  split
  · exact h
  · split
    · split
      · exact h
      · rw [nextNum, grow, eachSet]
        dsimp only
        rw [h, Bool.true_or, Bool.true_or]
    · exact h

/-- What was wrong stays so. -/
theorem fault_of_step {m' : Messages} {act : Action} (hstep : m.step compat act = some m')
    (h : m.fault = true) : m'.fault = true := by
  cases act with
  | load blocks =>
    obtain rfl := Option.some.inj hstep
    exact h
  | createMessage name fmt =>
    obtain rfl := Option.some.inj hstep
    rw [createMessage]
    split
    · exact h
    · split
      · exact h
      · exact place_of_fault (allot_of_fault h)
  | createMessageSet name conf =>
    obtain rfl := Option.some.inj hstep
    rw [createMessageSet]
    split
    · dsimp only
      rw [h, Bool.true_or, Bool.true_or]
    · dsimp only
      rw [h, Bool.true_or]
  | destroyMessage num =>
    obtain rfl := Option.some.inj hstep
    rw [destroyMessage]
    split
    · rfl
    · dsimp only [unset, eachSet]
      rw [h, Bool.true_or]

theorem Inv.step {m' : Messages} {act : Action} (hinv : m.Inv)
    (hstep : m.step compat act = some m') : m'.Inv := by
  intro hsafe
  have hsafe' : m.fault = false := by
    rw [← Bool.not_eq_true]
    intro hfault
    rw [fault_of_step hstep hfault] at hsafe
    cases hsafe
  have h := hinv hsafe'
  cases act with
  | load blocks =>
    obtain rfl := Option.some.inj hstep
    exact ⟨h.count_ge, h.count_le, h.written, h.live, h.dead, h.sizes⟩
  | createMessage name fmt =>
    obtain rfl := Option.some.inj hstep
    rcases @Shape.createMessage_cases compat m h name fmt with
      ⟨-, heq⟩ | ⟨⟨hfmt, -⟩, ⟨-, hfault⟩ | ⟨-, num, count, hlt, hge, hle, heq⟩⟩
    · rw [heq]
      exact h
    · rw [hfault] at hsafe
      cases hsafe
    · rw [heq]
      exact (h.withCount hge hle).place hfmt hlt
  | createMessageSet name conf =>
    obtain rfl := Option.some.inj hstep
    exact h.createMessageSet name conf
  | destroyMessage num =>
    obtain rfl := Option.some.inj hstep
    rw [destroyMessage] at hsafe ⊢
    split
    · rename_i hbad
      rw [if_pos hbad] at hsafe
      cases hsafe
    · exact h.unset

/-- A step keeps the texts exactly when it is suitable. -/
theorem Sound.step_iff {m' : Messages} {act : Action} (hs : m.Sound compat) (h : m.Shape)
    (hstep : m.step compat act = some m') : m'.Sound compat ↔ m.Suitable compat act := by
  cases act with
  | load blocks =>
    obtain rfl := Option.some.inj hstep
    exact iff_of_true ⟨hs.safe, hs.texts⟩ trivial
  | createMessage name fmt =>
    obtain rfl := Option.some.inj hstep
    rw [Suitable]
    rcases @Shape.createMessage_cases compat m h name fmt with
      ⟨hnone, heq⟩ |
      ⟨⟨hfmt, hname, hfind⟩, ⟨hfull, hfault⟩ | ⟨hfull, num, count, hlt, hge, hle, heq⟩⟩
    · rw [heq]
      exact iff_of_true hs fun hfmt hname hfind => absurd hfind (hnone hfmt hname)
    · refine iff_of_false (fun hsound => ?_) fun hsuit => (hsuit hfmt hname hfind).1 hfull
      rw [hsound.safe] at hfault
      cases hfault
    · have hs' : ({ m with count := count } : Messages).Sound compat := ⟨hs.safe, hs.texts⟩
      rw [heq, hs'.place_iff (h.withCount hge hle) hfmt hlt]
      exact ⟨fun hall _ _ _ => ⟨hfull, hall⟩, fun hsuit => (hsuit hfmt hname hfind).2⟩
  | createMessageSet name conf =>
    obtain rfl := Option.some.inj hstep
    exact hs.createMessageSet_iff h
  | destroyMessage num =>
    obtain rfl := Option.some.inj hstep
    rw [destroyMessage, Suitable]
    split
    · rename_i hbad
      refine iff_of_false (fun hsound => ?_) fun ⟨⟨hpos, hlt⟩, _⟩ => ?_
      · cases hsound.safe
      · rcases hbad with hneg | hge | hnone
        · exact Int.not_lt.mpr hpos hneg
        · exact Nat.not_lt.mpr hge hlt
        · exact h.written _ hlt hnone
    · rename_i hgood
      obtain ⟨hpos, hrest⟩ := not_or.mp hgood
      have hlt := Nat.not_le.mp (not_or.mp hrest).1
      rw [hs.unset_iff h hlt, and_iff_right ⟨Int.not_lt.mp hpos, hlt⟩]

theorem shape_start : start.Shape where
  count_ge := Nat.le_refl _
  count_le := by decide
  written _ _ := Option.some_ne_none _
  live i p hp := by cases hp
  dead i _ := Int.le_refl 0
  sizes msp hmsp := by cases hmsp

theorem sound_start : start.Sound compat where
  safe := rfl
  texts msp hmsp := by cases hmsp

/-- Each set has its own texts, and no access is wrong, in every state reached, exactly when all
steps are suitable. -/
theorem sound_of_run_iff (compat : Bytes → Bytes → Bool) (acts : List Action) (t : Messages)
    (hrun : Run.run (step compat) start acts = some t) :
    (∀ before behind m, acts = before ++ behind → Run.run (step compat) start before = some m →
      m.Sound compat) ↔ Run.Along (step compat) (Suitable compat) start acts :=
  Run.forall_reached_iff (I := Inv) (fun _ _ _ hinv hstep => hinv.step hstep)
    (fun _ _ _ hinv hs hstep => hs.step_iff (hinv hs.safe) hstep) (fun _ => shape_start)
    sound_start hrun

end

/-- Two sets, of which the second has a text of its own for one message. -/
def quitConf : MessageConf := [(bytes "quit-format", ⟨bytes "bye", by decide⟩)]

/-- The message is created before the sets. -/
def earlyMessage : List Action :=
  [.load [[], quitConf], .createMessage (bytes "quit-format") (bytes "Quit: %s"),
    .createMessageSet (bytes "a") [], .createMessageSet (bytes "b") quitConf]

theorem sound_of_run_iff_earlyMessage :
    ∃ t, Run.run (step fun _ _ => true) start earlyMessage = some t ∧
      ∀ before behind m, earlyMessage = before ++ behind →
        Run.run (step fun _ _ => true) start before = some m → m.Sound fun _ _ => true := by
  have hsome : (Run.run (step fun _ _ => true) start earlyMessage).isSome := by decide +kernel
  obtain ⟨t, hrun⟩ := Option.isSome_iff_exists.mp hsome
  exact ⟨t, hrun, (sound_of_run_iff _ earlyMessage t hrun).mpr (by decide +kernel)⟩

/-- The message is created after the sets. -/
def lateMessage : List Action :=
  [.load [[], quitConf], .createMessageSet (bytes "a") [], .createMessageSet (bytes "b") quitConf,
    .createMessage (bytes "quit-format") (bytes "Quit: %s")]

/-- The second set gets the default text. -/
theorem messages_fails : ¬ ∀ (compat : Bytes → Bytes → Bool) (acts : List Action) (m : Messages),
    Run.run (step compat) start acts = some m → m.Sound compat := by
  intro hall
  have hvals : (Run.run (step fun _ _ => true) start lateMessage).map
      (fun m => (m.live 1000, m.sets.map fun msp => (msp.msgs 1000,
        textIn (fun _ _ => true) msp.conf (bytes "quit-format") (bytes "Quit: %s")))) =
      some (some (bytes "quit-format", bytes "Quit: %s"),
        [(.text (bytes "Quit: %s"), bytes "Quit: %s"),
          (.text (bytes "Quit: %s"), bytes "bye")]) := by
    decide +kernel
  obtain ⟨m, hrun, hval⟩ := Option.map_eq_some_iff.mp hvals
  obtain ⟨hlive, hsets⟩ := Prod.mk.inj hval
  have hsecond : (TextPtr.text (bytes "Quit: %s"), bytes "bye") ∈ m.sets.map fun msp =>
      (msp.msgs 1000,
        textIn (fun _ _ => true) msp.conf (bytes "quit-format") (bytes "Quit: %s")) := by
    rw [hsets]
    simp
  obtain ⟨msp, hmsp, hpair⟩ := List.mem_map.mp hsecond
  obtain ⟨hslot, htext⟩ := Prod.mk.inj hpair
  have hown := (hall _ lateMessage m hrun).texts msp hmsp 1000 _ hlive
  rw [hslot, htext] at hown
  exact absurd (TextPtr.text.inj hown) (by decide)

end Messages

end Ithildin
