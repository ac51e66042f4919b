import Ithildin.Numbers
import Ithildin.Send.Messages
import Ithildin.Lib.Includes

/-!
# Privileges and privilege sets

The table of privileges, and sets with a value for each of them. A value comes from the set's block
of the configuration, or through the blocks it includes, both when a set is made and when a
privilege is added later.

* `PrivilegeConfs`: the `privilege-set` blocks, whose includes do not go round;
* `Privileges`: the table and the sets, with what their memory holds;
* `createPrivilege`, `createPrivilegeSet`, `destroyPrivilege`: the functions of `privilege.c`;
* `ProperValue`: what a set is to have for a privilege, said without the search of the code;
* `proper_of_run`: along steps that are `Suitable` each set has its proper values, and no access is
  wrong.
-/

namespace Ithildin

/-- The data entries of a `privilege-set` block. -/
abbrev PrivilegeConf := MessageConf

/-- What a privilege holds: one of the `PRIVILEGE_FL_` flags, the default, and for `TUPLE` the
words there are. -/
inductive PrivilegeType
  | bool (default : ℤ)
  | int (default : ℤ)
  | tuple (default : ℤ) (tuples : List (Bytes × ℤ))
  | str (default : Bytes)
  deriving DecidableEq

/-- What a slot of a set points at. -/
inductive PrivilegeVal
  | num (v : ℤ)
  | text (s : Bytes)
  deriving DecidableEq

namespace PrivilegeType

/-- `create_privilege` stores the default of a boolean as zero or one. -/
def stored : PrivilegeType → PrivilegeType
  | .bool default => .bool (if default ≠ 0 then 1 else 0)
  | kind => kind

/-- The value without a setting. -/
def default : PrivilegeType → PrivilegeVal
  | .bool default => .num default
  | .int default => .num default
  | .tuple default _ => .num default
  | .str default => .text default

/-- `atoi`: `strtol` with base ten, stored into an `int`. -/
def atoi (str : Bytes) : ℤ :=
  let v : ℤ := match str.dropWhile isSpace with
    | 45 :: s => - (digitsFrom 10 0 s : ℤ)
    | 43 :: s => digitsFrom 10 0 s
    | s => digitsFrom 10 0 s
  toInt32 (max (-9223372036854775808) (min v 9223372036854775807))

/-- `str_conv_bool`; what is not true is false, and `def` is not used for a text. -/
def strConvBool (str : Bytes) : Bool :=
  sameCase str (bytes "yes") || sameCase str (bytes "on") || decide (atoi str ≠ 0)

/-- The value for a setting, by the type. -/
def convert (kind : PrivilegeType) (s : Bytes) : PrivilegeVal :=
  match kind with
  | .str _ => .text s
  | .int default => .num (strConvInt s (toInt32 default))
  | .bool _ => .num (if strConvBool s then 1 else 0)
  | .tuple default tuples =>
      .num (((tuples.find? fun tuple => sameCase tuple.1 s).map Prod.snd).getD default)

/-- The value for what a search has found. -/
def valueOf (kind : PrivilegeType) : Option Bytes → PrivilegeVal
  | none => kind.default
  | some s => kind.convert s

end PrivilegeType

/-- The first block with a name. -/
def findNamed (data : Bytes) (blocks : List (Option Bytes × PrivilegeConf)) :
    Option PrivilegeConf :=
  (blocks.find? fun block => block.1.any fun s => sameCase s data).map Prod.snd

/-- The texts of the `include` entries. -/
def includeEntries (clp : PrivilegeConf) : List Bytes :=
  (clp.filter fun ent => sameCase ent.1 (bytes "include")).map fun ent => ent.2.1

/-- The blocks that one includes. -/
def included (blocks : List (Option Bytes × PrivilegeConf)) (clp : PrivilegeConf) :
    List PrivilegeConf :=
  (includeEntries clp).filterMap fun ent => findNamed ent blocks

/-- The `privilege-set` blocks of `*ircd.confhead`, whose includes do not go round. -/
structure PrivilegeConfs where
  blocks : List (Option Bytes × PrivilegeConf)
  acyclic : ∃ rank : PrivilegeConf → ℕ,
    ∀ clp ∈ blocks.map Prod.snd, ∀ clp' ∈ included blocks clp, rank clp' < rank clp

/-- No configuration. -/
def PrivilegeConfs.empty : PrivilegeConfs := ⟨[], fun _ => 0, fun _ h => absurd h List.not_mem_nil⟩

/-- `privilege_t`; a dead one has no name and no type. -/
structure Privilege where
  name : Option Bytes
  num : ℤ
  kind : Option PrivilegeType

/-- What memory a pointer in a set is in: not written yet, NULL, freed, or a value. -/
inductive ValPtr
  | junk
  | null
  | freed
  | val (v : PrivilegeVal)
  deriving DecidableEq

/-- `free` may be called with it. -/
def ValPtr.freeable : ValPtr → Bool
  | .null | .val _ => true
  | .junk | .freed => false

/-- `privilege_set_t`, with the pointers there is room for. -/
structure PrivilegeSet where
  name : Bytes
  vals : ℕ → ValPtr
  size : ℕ

/-- A slot is written. -/
def PrivilegeSet.put (psp : PrivilegeSet) (i : ℕ) (v : ValPtr) : PrivilegeSet :=
  { psp with vals := Function.update psp.vals i v }

theorem PrivilegeSet.put_vals_self (psp : PrivilegeSet) (i : ℕ) (v : ValPtr) :
    (psp.put i v).vals i = v :=
  Function.update_self ..

theorem PrivilegeSet.put_vals_of_ne (psp : PrivilegeSet) {i j : ℕ} (v : ValPtr) (h : j ≠ i) :
    (psp.put i v).vals j = psp.vals j :=
  Function.update_of_ne h ..

/-- `ircd.privileges`, the configuration, and whether there was an access outside a table, or
through a pointer that is none. -/
structure Privileges where
  privs : ℕ → Option Privilege
  count : ℕ
  size : ℕ
  sets : List PrivilegeSet
  confs : PrivilegeConfs
  fault : Bool

/-- `conf_find("privilege-set", data, ...)`; nothing at all comes of it when a block without a name
is compared. -/
def confFind (data : Bytes) : List (Option Bytes × PrivilegeConf) → Option (Option PrivilegeConf)
  | [] => some none
  | (none, _) :: _ => none
  | (some s, clp) :: rest => if sameCase s data then some (some clp) else confFind data rest

/-- The loop of `privilege_find_setting`. -/
def eachInclude (blocks : List (Option Bytes × PrivilegeConf))
    (find : PrivilegeConf → Option (Option Bytes)) : List Bytes → Option (Option Bytes)
  | [] => some none
  | ent :: rest =>
      match confFind ent blocks with
      | none => none
      | some none => eachInclude blocks find rest
      | some (some clp) =>
          match find clp with
          | none => none
          | some (some ret) => some (some ret)
          | some none => eachInclude blocks find rest

/-- `privilege_find_setting`, so many calls deep; nothing comes of a call that goes deeper. -/
def privilegeFindSetting (blocks : List (Option Bytes × PrivilegeConf)) (name : Bytes) :
    ℕ → PrivilegeConf → Option (Option Bytes)
  | 0, _ => none
  | depth + 1, clp =>
      match confFindEntry name clp with
      | some ent => some (some ent)
      | none => eachInclude blocks (privilegeFindSetting blocks name depth) (includeEntries clp)

namespace Privileges

variable (m : Privileges)

/-- As deep as includes that do not go round can lead. -/
def depth : ℕ := m.confs.blocks.length + 1

/-- `set_privilege_in_set`; the mark says that the search failed, or the slot is outside. -/
def setPrivilegeInSet (name : Bytes) (kind : PrivilegeType) (num : ℕ) (psp : PrivilegeSet)
    (clp : PrivilegeConf) : PrivilegeSet × Bool :=
  match privilegeFindSetting m.confs.blocks name m.depth clp with
  | none => (psp, true)
  | some s => (psp.put num (.val (kind.valueOf s)), decide (psp.size ≤ num))

/-- The number of a privilege, as the loops test it. -/
def numOf (i : ℕ) : ℤ := ((m.privs i).map Privilege.num).getD 0

/-- The name and the type of a privilege. -/
def live (i : ℕ) : Option (Bytes × PrivilegeType) :=
  (m.privs i).bind fun pp => pp.name.bind fun name => pp.kind.map fun kind => (name, kind)

/-- The privileges that `create_privilege_set` goes through. -/
def numbered : List ℕ := (List.range m.count).filter fun i => decide (0 ≤ m.numOf i)

/-- `find_privilege`. -/
def findPrivilege (name : Bytes) : Option ℕ :=
  (List.range m.count).find? fun i =>
    ((m.privs i).bind Privilege.name).any fun name' => sameCase name' name

/-- `find_privilege_set`. -/
def findPrivilegeSet (name : Bytes) : Option PrivilegeSet :=
  m.sets.find? fun psp => sameCase psp.name name

/-- Something is done to all sets. -/
def eachSet (f : PrivilegeSet → PrivilegeSet × Bool) : Privileges :=
  { m with
    sets := m.sets.map fun psp => (f psp).1
    fault := m.fault || m.sets.any fun psp => (f psp).2 }

/-- The old values of a set are freed. -/
def clearSet (psp : PrivilegeSet) : PrivilegeSet × Bool :=
  ({ psp with vals := fun i => if i ∈ m.numbered then .freed else psp.vals i },
    m.numbered.any fun i => decide (psp.size ≤ i) || !(psp.vals i).freeable)

/-- A slot of a set is filled in. -/
def fillSlot (clp : PrivilegeConf) (r : PrivilegeSet × Bool) (i : ℕ) : PrivilegeSet × Bool :=
  match m.live i with
  | some (name, kind) =>
      let r' := m.setPrivilegeInSet name kind i r.1 clp
      (r'.1, r.2 || r'.2)
  | none => (r.1, true)

/-- A set is filled in. -/
def fillSet (psp : PrivilegeSet) (clp : PrivilegeConf) : PrivilegeSet × Bool :=
  m.numbered.foldl (m.fillSlot clp) (psp, false)

/-- The first set stays the first. -/
def insertSet (psp : PrivilegeSet) : List PrivilegeSet → List PrivilegeSet
  | [] => [psp]
  | first :: rest => first :: psp :: rest

/-- The first set with the name is changed. -/
def changeSet (name : Bytes) (psp' : PrivilegeSet) : List PrivilegeSet → List PrivilegeSet
  | [] => []
  | psp :: rest =>
      if sameCase psp.name name then psp' :: rest else psp :: changeSet name psp' rest

/-- `create_privilege_set`; no list of entries is as an empty one. -/
def createPrivilegeSet (name : Bytes) (clp : PrivilegeConf) : Privileges :=
  match m.findPrivilegeSet name with
  | some psp =>
      let cleared := m.clearSet psp
      let filled := m.fillSet cleared.1 clp
      { m with
        sets := changeSet name filled.1 m.sets
        fault := m.fault || cleared.2 || filled.2 }
  | none =>
      let filled := m.fillSet ⟨name, fun _ => .junk, m.size⟩ clp
      { m with
        sets := insertSet filled.1 m.sets
        fault := m.fault || filled.2 }

/-- The first dead privilege. -/
def hole : Option ℕ := (List.range m.count).find? fun i => decide (m.numOf i < 0)

/-- `sizeof(privilege_t)`, on a machine with pointers of eight bytes. -/
def sizeofPrivilege : ℕ := 32

/-- 512 more slots. What `memset` clears begins as many times the size of an element farther. -/
def grow : Privileges :=
  let size := m.size + 512
  let start := sizeofPrivilege * (size - 512)
  { m with
    privs := fun i =>
      if start ≤ i ∧ i < start + 512 then some ⟨none, 0, none⟩
      else if m.size ≤ i then none else m.privs i
    size := size
    fault := m.fault || decide (size < start + 512) }.eachSet fun psp =>
      let start := sizeofPointer * (size - 512)
      ({ psp with
        vals := fun i =>
          if start ≤ i ∧ i < start + 512 then .null
          else if psp.size ≤ i then .junk else psp.vals i
        size := size }, decide (size < start + 512))

/-- The next number is used. -/
def nextNum : ℕ × Privileges := (m.count, { m with count := m.count + 1 })

/-- A number for a new privilege. -/
def allot : ℕ × Privileges :=
  if m.count = m.size then
    match m.hole with
    | some i => (i, m)
    | none => m.grow.nextNum
  else m.nextNum

/-- A new privilege is set in a set, if the configuration has a block for that. -/
def setFromConf (name : Bytes) (kind : PrivilegeType) (num : ℕ) (psp : PrivilegeSet) :
    PrivilegeSet × Bool :=
  match confFind psp.name m.confs.blocks with
  | none => (psp, true)
  | some none => (psp, false)
  | some (some clp) => m.setPrivilegeInSet name kind num psp clp

/-- A privilege is put in its slot, and set in all sets. -/
def place (num : ℕ) (name : Bytes) (kind : PrivilegeType) : Privileges :=
  { m with privs := Function.update m.privs num (some ⟨some name, num, some kind⟩) }.eachSet
    (m.setFromConf name kind num)

/-- `create_privilege`; an empty name stands for NULL too. -/
def createPrivilege (name : Bytes) (kind : PrivilegeType) : ℤ × Privileges :=
  if name = [] then (-1, m)
  else if (m.findPrivilege name).isSome then (-1, m)
  else
    let r := m.allot
    (r.1, r.2.place r.1 name kind.stored)

/-- A privilege goes, from the table and from all sets. -/
def unset (i : ℕ) : Privileges :=
  { m with privs := Function.update m.privs i (some ⟨none, -1, none⟩) }.eachSet fun psp =>
    (psp.put i .null, decide (psp.size ≤ i) || !(psp.vals i).freeable)

/-- `destroy_privilege`. -/
def destroyPrivilege (num : ℤ) : Privileges :=
  if m.count ≤ num then m
  else if num < 0 then { m with fault := true }
  else m.unset num.toNat

/-- A step of `ircd_parse_privilege_sets`. -/
def parseBlock (m : Privileges) : Option Bytes × PrivilegeConf → Privileges
  | (some name, clp) => if name = [] then m else m.createPrivilegeSet name clp
  | (none, _) => m

/-- `ircd_parse_privilege_sets`, of a new configuration. -/
def rehash (confs : PrivilegeConfs) : Privileges :=
  confs.blocks.foldl parseBlock { m with confs := confs }

/-- The table at the start. -/
def start : Privileges := ⟨fun _ => none, 0, 0, [], PrivilegeConfs.empty, false⟩

/-- A configuration is read, or one of the three functions is called. -/
inductive Action
  | rehash (confs : PrivilegeConfs)
  | createPrivilege (name : Bytes) (kind : PrivilegeType)
  | createPrivilegeSet (name : Bytes) (clp : PrivilegeConf)
  | destroyPrivilege (num : ℤ)

/-- A step. -/
def step (m : Privileges) : Action → Option Privileges
  | .rehash confs => some (m.rehash confs)
  | .createPrivilege name kind => some (m.createPrivilege name kind).2
  | .createPrivilegeSet name clp => some (m.createPrivilegeSet name clp)
  | .destroyPrivilege num => some (m.destroyPrivilege num)

/-! ### What a set is to have -/

/-- What a block finds for a privilege, through its includes. -/
def Setting (confs : PrivilegeConfs) (name : Bytes) : PrivilegeConf → Option Bytes → Prop :=
  Includes.Finds (confFindEntry name) (included confs.blocks)

/-- The value that a set is to have for a privilege. -/
def ProperValue (confs : PrivilegeConfs) (setName : Bytes) (p : Bytes × PrivilegeType)
    (v : PrivilegeVal) : Prop :=
  match findNamed setName confs.blocks with
  | none => v = p.2.default
  | some clp => ∃ s, Setting confs p.1 clp s ∧ v = p.2.valueOf s

/-- A list of entries gives a set the value that it is to have. -/
def Agrees (confs : PrivilegeConfs) (setName : Bytes) (clp : PrivilegeConf)
    (p : Bytes × PrivilegeType) : Prop :=
  ∃ s, Setting confs p.1 clp s ∧ ProperValue confs setName p (p.2.valueOf s)

/-- No access was wrong, and each set has its proper value for each privilege. -/
structure Proper : Prop where
  safe : m.fault = false
  values : ∀ psp ∈ m.sets, ∀ i, ∀ p ∈ m.live i,
    ∃ v, psp.vals i = .val v ∧ ProperValue m.confs psp.name p v

/-- The table is to grow, and not for the first time. -/
def full : Prop := m.count = m.size ∧ m.size ≠ 0 ∧ m.hole = none

/-- All blocks of a new configuration have names, of two with one name the last gives what the first
does, and a set that has no block there has its defaults already. A privilege is added when all sets
are in the configuration and there is room. A set is made from entries that give what its block
does. What is destroyed has been filled or cleared in all sets. -/
def Suitable (m : Privileges) : Action → Prop
  | .rehash confs => (∀ block ∈ confs.blocks, block.1 ≠ none) ∧
      (∀ psp ∈ m.sets, findNamed psp.name confs.blocks = none → ∀ i, ∀ p ∈ m.live i,
        ProperValue m.confs psp.name p p.2.default) ∧
      ∀ before name clp after, confs.blocks = before ++ (some name, clp) :: after → name ≠ [] →
        findNamed name after = none → ∀ i, ∀ p ∈ m.live i, Agrees confs name clp p
  | .createPrivilege name _ => name ≠ [] → m.findPrivilege name = none →
      ¬ m.full ∧ ∀ psp ∈ m.sets, findNamed psp.name m.confs.blocks ≠ none
  | .createPrivilegeSet name clp => name ≠ [] ∧ ∀ i, ∀ p ∈ m.live i, Agrees m.confs name clp p
  | .destroyPrivilege num => m.count ≤ num ∨
      0 ≤ num ∧ ∀ psp ∈ m.sets, (psp.vals num.toNat).freeable = true

section
variable {m} {confs : PrivilegeConfs} {blocks : List (Option Bytes × PrivilegeConf)}
  {name data : Bytes} {clp : PrivilegeConf} {psp : PrivilegeSet} {kind : PrivilegeType} {num i : ℕ}

theorem Setting.unique {s s' : Option Bytes} (h : Setting confs name clp s)
    (h' : Setting confs name clp s') : s = s' :=
  Includes.Finds.unique h h'

theorem properValue_iff_of_agrees {p : Bytes × PrivilegeType} {s : Option Bytes}
    (h : Agrees confs name clp p) (hs : Setting confs p.1 clp s) :
    ProperValue confs name p (p.2.valueOf s) := by
  obtain ⟨s', hs', hproper⟩ := h
  rwa [hs.unique hs']

theorem findNamed_congr (h : sameCase name data = true) :
    findNamed name blocks = findNamed data blocks := by
  have heq : name.map toLower = data.map toLower := sameCase_iff.mp h
  rw [findNamed, findNamed]
  simp only [sameCase, heq]

theorem properValue_congr {p : Bytes × PrivilegeType} {v : PrivilegeVal}
    (h : sameCase name data = true) : ProperValue confs name p v ↔ ProperValue confs data p v := by
  rw [ProperValue, ProperValue, findNamed_congr h]

/-- A comparison finds a block if all have names. -/
theorem confFind_eq (h : ∀ block ∈ blocks, block.1 ≠ none) :
    confFind data blocks = some (findNamed data blocks) := by
  induction blocks with
  | nil => rfl
  | cons block blocks ih =>
    obtain ⟨s | s, clp⟩ := block
    · exact absurd rfl (h (none, clp) List.mem_cons_self)
    · have hrest := ih fun block hblock => h block (List.mem_cons_of_mem _ hblock)
      rw [confFind, findNamed, List.find?_cons]
      simp only [Option.any_some]
      by_cases hs : sameCase s data = true
      · rw [if_pos hs, hs]
        rfl
      · rw [if_neg hs, Bool.eq_false_iff.mpr hs]
        exact hrest

theorem findNamed_mem (h : findNamed data blocks = some clp) : clp ∈ blocks.map Prod.snd := by
  obtain ⟨block, hblock, rfl⟩ := Option.map_eq_some_iff.mp h
  exact List.mem_map_of_mem (List.mem_of_find?_eq_some hblock)

theorem mem_blocks_of_included {clp' : PrivilegeConf} (h : clp' ∈ included blocks clp) :
    clp' ∈ blocks.map Prod.snd := by
  obtain ⟨ent, -, hfind⟩ := List.mem_filterMap.mp h
  exact findNamed_mem hfind

/-- The loop comes to what the first included block with a setting finds. -/
theorem eachInclude_spec {find : PrivilegeConf → Option (Option Bytes)}
    {Found : PrivilegeConf → Option Bytes → Prop} (hnamed : ∀ block ∈ blocks, block.1 ≠ none)
    {ents : List Bytes}
    (hfind : ∀ clp ∈ ents.filterMap fun ent => findNamed ent blocks,
      ∃ s, find clp = some s ∧ Found clp s) :
    (eachInclude blocks find ents = some none ∧
        ∀ clp ∈ ents.filterMap fun ent => findNamed ent blocks, Found clp none) ∨
      ∃ before clp after s, (ents.filterMap fun ent => findNamed ent blocks) =
          before ++ clp :: after ∧ (∀ d ∈ before, Found d none) ∧ Found clp (some s) ∧
        eachInclude blocks find ents = some (some s) := by
  induction ents with
  | nil => exact .inl ⟨rfl, fun _ h => absurd h List.not_mem_nil⟩
  | cons ent ents ih =>
    rw [eachInclude, confFind_eq hnamed]
    cases hent : findNamed ent blocks with
    | none =>
      rw [List.filterMap_cons_none (f := fun ent => findNamed ent blocks) hent] at hfind ⊢
      exact ih hfind
    | some clp =>
      rw [List.filterMap_cons_some (f := fun ent => findNamed ent blocks) hent] at hfind ⊢
      obtain ⟨s, hs, hfound⟩ := hfind clp List.mem_cons_self
      dsimp only
      rw [hs]
      cases s with
      | some s => exact .inr ⟨[], clp, _, s, rfl, fun _ h => absurd h List.not_mem_nil, hfound, rfl⟩
      | none =>
        rcases ih fun clp' hclp' => hfind clp' (List.mem_cons_of_mem _ hclp') with
          ⟨heq, hall⟩ | ⟨before, clp', after, s, hsplit, hbefore, hclp', heq⟩
        · refine .inl ⟨heq, fun d hd => ?_⟩
          rcases List.mem_cons.mp hd with rfl | hd
          · exact hfound
          · exact hall d hd
        · refine .inr ⟨clp :: before, clp', after, s, ?_, fun d hd => ?_, hclp', heq⟩
          · rw [hsplit, List.cons_append]
          · rcases List.mem_cons.mp hd with rfl | hd
            · exact hfound
            · exact hbefore d hd

/-- The search comes to what the block finds, if it may go deeper than there are blocks below. -/
theorem exists_setting {rank : PrivilegeConf → ℕ}
    (hrank : ∀ clp ∈ confs.blocks.map Prod.snd, ∀ clp' ∈ included confs.blocks clp,
      rank clp' < rank clp)
    (hnamed : ∀ block ∈ confs.blocks, block.1 ≠ none) (depth : ℕ)
    (hdepth : ∀ clp' ∈ included confs.blocks clp,
      Includes.height rank (confs.blocks.map Prod.snd) (rank clp') + 1 < depth)
    (hpos : 0 < depth) :
    ∃ s, privilegeFindSetting confs.blocks name depth clp = some s ∧ Setting confs name clp s := by
  induction depth generalizing clp with
  | zero => cases hpos
  | succ depth ih =>
    rw [privilegeFindSetting]
    cases hown : confFindEntry name clp with
    | some s => exact ⟨some s, rfl, .own hown⟩
    | none =>
      have hfind : ∀ clp' ∈ included confs.blocks clp,
          ∃ s, privilegeFindSetting confs.blocks name depth clp' = some s ∧
            Setting confs name clp' s := by
        intro clp' hclp'
        have hbelow := hdepth clp' hclp'
        refine ih (fun clp'' hclp'' => ?_) (by omega)
        have hmem := mem_blocks_of_included hclp''
        have hlt := Includes.height_lt hmem (hrank clp' (mem_blocks_of_included hclp') clp'' hclp'')
        omega
      rcases eachInclude_spec hnamed hfind with ⟨heq, hall⟩ |
        ⟨before, clp', after, s, hsplit, hbefore, hclp', heq⟩
      · exact ⟨none, heq, .nothing hown hall⟩
      · exact ⟨some s, heq, .included hown hsplit hbefore hclp'⟩

/-- The includes of a configuration do not lead deeper than it has blocks. -/
theorem exists_setting_depth (hnamed : ∀ block ∈ m.confs.blocks, block.1 ≠ none) (name : Bytes)
    (clp : PrivilegeConf) :
    ∃ s, privilegeFindSetting m.confs.blocks name m.depth clp = some s ∧
      Setting m.confs name clp s := by
  obtain ⟨rank, hrank⟩ := m.confs.acyclic
  refine exists_setting hrank hnamed m.depth (fun clp' hclp' => ?_) (Nat.succ_pos _)
  have hmem := mem_blocks_of_included hclp'
  have hlt : Includes.height rank (m.confs.blocks.map Prod.snd) (rank clp') <
      (m.confs.blocks.map Prod.snd).length :=
    Nat.lt_of_lt_of_le (Includes.height_lt hmem (Nat.lt_succ_self _)) (Includes.height_le _)
  rw [List.length_map] at hlt
  rw [depth]
  omega

/-! ### The table -/

variable (m) in
/-- The table, where `num` may be a number that nothing is put under yet: privileges have their
numbers, and nothing else has one. -/
structure Shape (num : Option ℕ) : Prop where
  count_le : m.count ≤ m.size
  live : ∀ i, ∀ p ∈ m.live i, i < m.count ∧ m.numOf i = i
  dead : ∀ i < m.count, some i ≠ num → m.live i = none → m.numOf i < 0
  sizes : ∀ psp ∈ m.sets, psp.size = m.size
  names : m.sets.Pairwise fun psp psp' => sameCase psp'.name psp.name = false
  names_ne : ∀ psp ∈ m.sets, psp.name ≠ []
  blocks : ∀ block ∈ m.confs.blocks, block.1 ≠ none

theorem Shape.mem_numbered (h : m.Shape none) : i ∈ m.numbered ↔ (m.live i).isSome := by
  rw [numbered, List.mem_filter, List.mem_range, decide_eq_true_eq]
  cases hlive : m.live i with
  | none =>
    refine iff_of_false ?_ (by simp)
    rintro ⟨hlt, hnum⟩
    exact Int.not_lt.mpr hnum (h.dead i hlt (Option.some_ne_none i) hlive)
  | some p =>
    obtain ⟨hlt, hnum⟩ := h.live i p hlive
    simp [hlt, hnum]

variable (m clp) in
/-- What a set gets for a privilege. -/
def valueFor (i : ℕ) : PrivilegeVal :=
  match m.live i with
  | some p => p.2.valueOf
      ((privilegeFindSetting m.confs.blocks p.1 m.depth clp).getD none)
  | none => .num 0

variable (m clp psp) in
/-- A set has the values that a list of entries gives. -/
def Filled : Prop :=
  ∀ i, ∀ p ∈ m.live i, ∃ s, Setting m.confs p.1 clp s ∧ psp.vals i = .val (p.2.valueOf s)

theorem Shape.setPrivilegeInSet_eq {n : Option ℕ} (h : m.Shape n) (name : Bytes)
    (kind : PrivilegeType) (num : ℕ) (psp : PrivilegeSet) (clp : PrivilegeConf) :
    ∃ s, Setting m.confs name clp s ∧ m.setPrivilegeInSet name kind num psp clp =
      (psp.put num (.val (kind.valueOf s)), decide (psp.size ≤ num)) := by
  obtain ⟨s, heq, hs⟩ := exists_setting_depth h.blocks name clp
  refine ⟨s, hs, ?_⟩
  rw [setPrivilegeInSet, heq]

theorem Shape.fillSlot_eq (h : m.Shape none) (hsize : psp.size = m.size) (hi : i ∈ m.numbered) :
    m.fillSlot clp (psp, false) i = (psp.put i (.val (m.valueFor clp i)), false) := by
  obtain ⟨⟨name, kind⟩, hp⟩ := Option.isSome_iff_exists.mp (h.mem_numbered.mp hi)
  obtain ⟨s, heq, -⟩ := exists_setting_depth h.blocks name clp
  have hroom : decide (psp.size ≤ i) = false :=
    decide_eq_false (Nat.not_le.mpr (hsize ▸ Nat.lt_of_lt_of_le (h.live i _ hp).1 h.count_le))
  rw [fillSlot, hp, valueFor, hp]
  dsimp only
  rw [setPrivilegeInSet, heq]
  dsimp only
  rw [hroom]
  rfl

/-- The slots of a list of privileges are filled, and no others. -/
theorem Shape.foldl_fillSlot (h : m.Shape none) {l : List ℕ} (hl : ∀ i ∈ l, i ∈ m.numbered)
    (hsize : psp.size = m.size) :
    l.foldl (m.fillSlot clp) (psp, false) =
      ({ psp with
        vals := fun i => if i ∈ l then .val (m.valueFor clp i) else psp.vals i }, false) := by
  induction l generalizing psp with
  | nil => simp
  | cons j l ih =>
    rw [List.foldl_cons, h.fillSlot_eq hsize (hl j List.mem_cons_self)]
    refine (@ih (psp.put j _) (fun i hi => hl i (List.mem_cons_of_mem j hi)) hsize).trans ?_
    refine congrArg (·, false) ?_
    refine congrArg (fun vals => { psp with vals := vals }) ?_
    funext i
    by_cases hil : i ∈ l
    · rw [if_pos hil, if_pos (List.mem_cons_of_mem j hil)]
    · by_cases hij : i = j
      · subst hij
        rw [if_neg hil, if_pos List.mem_cons_self, PrivilegeSet.put_vals_self]
      · rw [if_neg hil, PrivilegeSet.put_vals_of_ne _ _ hij, if_neg (by simp [hij, hil])]

/-- A set that is filled in has what the entries give, and nothing was wrong. -/
theorem Shape.fillSet_spec (h : m.Shape none) (psp : PrivilegeSet) (clp : PrivilegeConf)
    (hsize : psp.size = m.size) :
    ∃ psp', m.fillSet psp clp = (psp', false) ∧ psp'.name = psp.name ∧ psp'.size = psp.size ∧
      m.Filled clp psp' := by
  refine ⟨_, h.foldl_fillSlot (fun _ hi => hi) hsize, rfl, rfl, fun i p hp => ?_⟩
  obtain ⟨s, heq, hs⟩ := exists_setting_depth h.blocks p.1 clp
  refine ⟨s, hs, ?_⟩
  dsimp only
  rw [if_pos (h.mem_numbered.mpr (Option.isSome_of_mem hp)), valueFor,
    show m.live i = some p from hp]
  dsimp only
  rw [heq]
  rfl

/-! ### Sets -/

theorem mem_insertSet {l : List PrivilegeSet} {psp' : PrivilegeSet} :
    psp' ∈ insertSet psp l ↔ psp' = psp ∨ psp' ∈ l := by
  cases l with
  | nil => rw [insertSet, List.mem_singleton, or_iff_left List.not_mem_nil]
  | cons first rest =>
    rw [insertSet, List.mem_cons, List.mem_cons, List.mem_cons]
    exact or_left_comm

theorem pairwise_insertSet {R : PrivilegeSet → PrivilegeSet → Prop}
    (hsymm : ∀ psp psp', R psp psp' → R psp' psp) {l : List PrivilegeSet} (hl : l.Pairwise R)
    (hnew : ∀ psp' ∈ l, R psp psp') : (insertSet psp l).Pairwise R := by
  cases l with
  | nil => exact List.pairwise_singleton R psp
  | cons first rest =>
    obtain ⟨hfirst, hrest⟩ := List.pairwise_cons.mp hl
    refine List.pairwise_cons.mpr ⟨fun psp' hpsp' => ?_, List.pairwise_cons.mpr ⟨?_, hrest⟩⟩
    · rcases List.mem_cons.mp hpsp' with rfl | hpsp'
      · exact hsymm _ _ (hnew first List.mem_cons_self)
      · exact hfirst psp' hpsp'
    · exact fun psp' hpsp' => hnew psp' (List.mem_cons_of_mem _ hpsp')

/-- The first set with the name is exchanged. -/
theorem changeSet_eq {l : List PrivilegeSet} {old : PrivilegeSet} (psp' : PrivilegeSet)
    (h : l.find? (fun psp => sameCase psp.name name) = some old) :
    ∃ before after, l = before ++ old :: after ∧ (∀ psp ∈ before, sameCase psp.name name = false) ∧
      changeSet name psp' l = before ++ psp' :: after := by
  induction l with
  | nil => cases h
  | cons psp l ih =>
    rw [changeSet]
    by_cases hname : sameCase psp.name name = true
    · rw [List.find?_cons_of_pos (p := fun psp : PrivilegeSet => sameCase psp.name name) hname] at h
      obtain rfl := Option.some.inj h
      exact ⟨[], l, rfl, fun _ hmem => absurd hmem List.not_mem_nil, if_pos hname⟩
    · rw [List.find?_cons_of_neg (p := fun psp : PrivilegeSet => sameCase psp.name name) hname] at h
      obtain ⟨before, after, heq, hbefore, hchange⟩ := ih h
      refine ⟨psp :: before, after, by rw [heq, List.cons_append], fun psp'' hmem => ?_, ?_⟩
      · rcases List.mem_cons.mp hmem with rfl | hmem
        · exact Bool.eq_false_iff.mpr hname
        · exact hbefore psp'' hmem
      · rw [if_neg hname, hchange, List.cons_append]

theorem sameCase_comm {s t : Bytes} : sameCase s t = sameCase t s := by
  rw [Bool.eq_iff_iff, sameCase_iff, sameCase_iff]
  exact eq_comm

theorem Shape.withSets {n : Option ℕ} {sets : List PrivilegeSet} (h : m.Shape n)
    (hsizes : ∀ psp ∈ sets, psp.size = m.size)
    (hnames : sets.Pairwise fun psp psp' => sameCase psp'.name psp.name = false)
    (hne : ∀ psp ∈ sets, psp.name ≠ []) : ({ m with sets := sets } : Privileges).Shape n where
  count_le := h.count_le
  live := h.live
  dead := h.dead
  sizes := hsizes
  names := hnames
  names_ne := hne
  blocks := h.blocks

/-- Values that are there are freed once. -/
theorem Shape.clearSet_snd (h : m.Shape none) (hpsp : psp ∈ m.sets)
    (hvals : ∀ i, (m.live i).isSome → (psp.vals i).freeable = true) :
    (m.clearSet psp).2 = false := by
  rw [clearSet, List.any_eq_false]
  intro i hi
  have hlive := h.mem_numbered.mp hi
  obtain ⟨p, hp⟩ := Option.isSome_iff_exists.mp hlive
  have hroom : ¬ psp.size ≤ i := by
    rw [h.sizes psp hpsp]
    exact Nat.not_le.mpr (Nat.lt_of_lt_of_le (h.live i p hp).1 h.count_le)
  rw [hvals i hlive, decide_eq_false hroom]
  exact Bool.false_ne_true

/-- `create_privilege_set` fills in one set, which has the name, and leaves the others. -/
theorem Shape.createPrivilegeSet_spec (h : m.Shape none) (hname : name ≠ []) (clp : PrivilegeConf)
    (hvals : ∀ psp ∈ m.sets, ∀ i, (m.live i).isSome → (psp.vals i).freeable = true) :
    ∃ sets, m.createPrivilegeSet name clp = { m with sets := sets } ∧
      ({ m with sets := sets } : Privileges).Shape none ∧
      ∀ psp ∈ sets, (sameCase psp.name name = true ∧ m.Filled clp psp) ∨
        psp ∈ m.sets ∧ sameCase psp.name name = false := by
  rw [createPrivilegeSet]
  cases hfind : m.findPrivilegeSet name with
  | none =>
    have hother : ∀ psp ∈ m.sets, sameCase psp.name name = false := by
      intro psp hpsp
      exact Bool.eq_false_iff.mpr (List.find?_eq_none.mp hfind psp hpsp)
    obtain ⟨psp', heq, hname', hsize', hfilled⟩ :=
      h.fillSet_spec ⟨name, fun _ => .junk, m.size⟩ clp rfl
    dsimp only at hname' hsize' ⊢
    refine ⟨insertSet psp' m.sets, by rw [heq, Bool.or_false], h.withSets ?_ ?_ ?_, ?_⟩
    · intro psp hpsp
      rcases mem_insertSet.mp hpsp with rfl | hpsp
      · exact hsize'
      · exact h.sizes psp hpsp
    · refine pairwise_insertSet (fun psp psp' hR => ?_) h.names fun psp hpsp => ?_
      · rw [sameCase_comm]
        exact hR
      · rw [hname']
        exact hother psp hpsp
    · intro psp hpsp
      rcases mem_insertSet.mp hpsp with rfl | hpsp
      · rwa [hname']
      · exact h.names_ne psp hpsp
    · intro psp hpsp
      rcases mem_insertSet.mp hpsp with rfl | hpsp
      · exact .inl ⟨by rw [hname']; exact sameCase_iff.mpr rfl, hfilled⟩
      · exact .inr ⟨hpsp, hother psp hpsp⟩
  | some old =>
    have hold : old ∈ m.sets := List.mem_of_find?_eq_some hfind
    have hsame : sameCase old.name name = true :=
      List.find?_some (p := fun psp : PrivilegeSet => sameCase psp.name name) hfind
    obtain ⟨psp', heq, hname', hsize', hfilled⟩ :=
      h.fillSet_spec (m.clearSet old).1 clp (h.sizes old hold)
    obtain ⟨before, after, hsets, hbefore, hchange⟩ := changeSet_eq psp' hfind
    have hpair := h.names
    rw [hsets, List.pairwise_append, List.pairwise_cons] at hpair
    obtain ⟨hpbefore, ⟨hpold, hpafter⟩, hpcross⟩ := hpair
    have hold_name : psp'.name = old.name := hname'
    have hmem : ∀ psp, psp ∈ before ++ psp' :: after → psp = psp' ∨
        psp ∈ m.sets ∧ sameCase psp.name name = false := by
      intro psp hpsp
      rcases List.mem_append.mp hpsp with hpsp | hpsp
      · exact .inr ⟨by rw [hsets]; exact List.mem_append_left _ hpsp, hbefore psp hpsp⟩
      · rcases List.mem_cons.mp hpsp with rfl | hpsp
        · exact .inl rfl
        · refine .inr ⟨?_, ?_⟩
          · rw [hsets]
            exact List.mem_append_right _ (List.mem_cons_of_mem _ hpsp)
          · have hne := hpold psp hpsp
            rw [sameCase, sameCase_iff.mp hsame] at hne
            exact hne
    refine ⟨before ++ psp' :: after, ?_, h.withSets ?_ ?_ ?_, ?_⟩
    · dsimp only
      rw [heq, h.clearSet_snd hold (hvals old hold), Bool.or_false, Bool.or_false, hchange]
    · intro psp hpsp
      rcases hmem psp hpsp with rfl | ⟨hpsp, -⟩
      · exact hsize'.trans (h.sizes old hold)
      · exact h.sizes psp hpsp
    · refine List.pairwise_append.mpr ⟨hpbefore, List.pairwise_cons.mpr ⟨?_, hpafter⟩, ?_⟩
      · rw [hold_name]
        exact hpold
      · intro psp hpsp psp'' hpsp''
        rcases List.mem_cons.mp hpsp'' with rfl | hpsp''
        · rw [hold_name]
          exact hpcross psp hpsp old List.mem_cons_self
        · exact hpcross psp hpsp psp'' (List.mem_cons_of_mem _ hpsp'')
    · intro psp hpsp
      rcases hmem psp hpsp with rfl | ⟨hpsp, -⟩
      · rw [hold_name]
        exact h.names_ne old hold
      · exact h.names_ne psp hpsp
    · intro psp hpsp
      rcases hmem psp hpsp with rfl | hother
      · exact .inl ⟨by rw [hold_name]; exact hsame, hfilled⟩
      · exact .inr hother

/-! ### New privileges -/

theorem Shape.mapSets {n : Option ℕ} {f : PrivilegeSet → PrivilegeSet} (h : m.Shape n)
    (hname : ∀ psp, (f psp).name = psp.name) (hsize : ∀ psp, (f psp).size = psp.size) :
    ({ m with sets := m.sets.map f } : Privileges).Shape n := by
  refine h.withSets (fun psp hpsp => ?_) ?_ fun psp hpsp => ?_
  · obtain ⟨psp', hpsp', rfl⟩ := List.mem_map.mp hpsp
    exact (hsize psp').trans (h.sizes psp' hpsp')
  · refine List.pairwise_map.mpr (h.names.imp fun hne => ?_)
    rw [hname, hname]
    exact hne
  · obtain ⟨psp', hpsp', rfl⟩ := List.mem_map.mp hpsp
    rw [hname]
    exact h.names_ne psp' hpsp'

theorem grow_count : m.grow.count = m.count := by
  rw [grow, eachSet]

theorem nextNum_grow_count : m.grow.nextNum.2.count = m.count + 1 := by
  rw [nextNum, grow, eachSet]

theorem nextNum_grow_size : m.grow.nextNum.2.size = m.size + 512 := by
  rw [nextNum, grow, eachSet]

theorem nextNum_grow_privs : m.grow.nextNum.2.privs i =
    if sizeofPrivilege * (m.size + 512 - 512) ≤ i ∧
        i < sizeofPrivilege * (m.size + 512 - 512) + 512 then some ⟨none, 0, none⟩
    else if m.size ≤ i then none else m.privs i := by
  rw [nextNum, grow, eachSet]

/-- With no privilege yet, what the table grows by is cleared. -/
theorem Shape.grow_first (h : m.Shape none) (hsize : m.size = 0) :
    m.grow.nextNum.2.Shape (some m.grow.count) ∧ m.grow.nextNum.2.fault = m.fault ∧
      (∀ i, m.live i = none) ∧ ∀ i, m.grow.nextNum.2.live i = none := by
  have hcount : m.count = 0 := Nat.le_zero.mp (hsize ▸ h.count_le)
  have hlive : ∀ i, m.live i = none := by
    intro i
    refine Option.eq_none_iff_forall_not_mem.mpr fun p hp => ?_
    have hlt := (h.live i p hp).1
    omega
  have hlive' : ∀ i, m.grow.nextNum.2.live i = none := by
    intro i
    rw [Privileges.live, nextNum_grow_privs]
    split
    · rfl
    · rw [hsize, if_pos (Nat.zero_le i)]
      rfl
  refine ⟨?_, ?_, hlive, hlive'⟩
  · refine ⟨?_, fun i p hp => ?_, fun i hi hne _ => ?_, fun psp hpsp => ?_, ?_, fun psp hpsp => ?_,
      h.blocks⟩
    · rw [nextNum_grow_count, nextNum_grow_size]
      omega
    · rw [hlive' i] at hp
      cases hp
    · rw [nextNum_grow_count] at hi
      refine absurd (congrArg some ?_) hne
      rw [grow_count]
      omega
    · obtain ⟨psp', -, rfl⟩ := List.mem_map.mp hpsp
      rfl
    · exact List.pairwise_map.mpr (h.names.imp id)
    · obtain ⟨psp', hpsp', rfl⟩ := List.mem_map.mp hpsp
      exact h.names_ne psp' hpsp'
  · have hany : ∀ l : List PrivilegeSet, (l.any fun _ => decide (m.size + 512 <
        sizeofPointer * (m.size + 512 - 512) + 512)) = false := by
      intro l
      rw [List.any_eq_false]
      intro psp _
      rw [hsize]
      decide
    have hprivs : decide (m.size + 512 < sizeofPrivilege * (m.size + 512 - 512) + 512) = false := by
      rw [hsize]
      decide
    rw [nextNum, grow, eachSet]
    dsimp only
    rw [hany, hprivs, Bool.or_false, Bool.or_false]

/-- A number is found, for which nothing is in the table, and what there is stays. -/
theorem Shape.allot_spec (h : m.Shape none) (hfull : ¬ m.full) :
    ∃ num m', m.allot = (num, m') ∧ num < m'.count ∧ m'.Shape (some num) ∧ m'.confs = m.confs ∧
      m'.fault = m.fault ∧ (∀ i, m'.live i = m.live i) ∧
      ∀ psp' ∈ m'.sets, ∃ psp ∈ m.sets, psp'.name = psp.name ∧
        ∀ i, (m.live i).isSome → psp'.vals i = psp.vals i := by
  rw [allot]
  by_cases hcount : m.count = m.size
  · rw [if_pos hcount]
    cases hhole : m.hole with
    | some i =>
      have hlt : i < m.count := List.mem_range.mp (List.mem_of_find?_eq_some hhole)
      refine ⟨i, m, rfl, hlt, ?_, rfl, rfl, fun _ => rfl, fun psp hpsp => ⟨psp, hpsp, rfl, ?_⟩⟩
      · exact ⟨h.count_le, h.live, fun j hj _ => h.dead j hj (Option.some_ne_none j), h.sizes,
          h.names, h.names_ne, h.blocks⟩
      · exact fun _ _ => rfl
    | none =>
      have hsize : m.size = 0 := by
        by_contra hne
        exact hfull ⟨hcount, hne, hhole⟩
      obtain ⟨hshape, hfault, hnone, hnone'⟩ := h.grow_first hsize
      refine ⟨m.grow.count, m.grow.nextNum.2, rfl, ?_, hshape, ?_, hfault, fun i => ?_,
        fun psp hpsp => ?_⟩
      · rw [grow_count, nextNum_grow_count]
        exact Nat.lt_succ_self _
      · rw [nextNum, grow, eachSet]
      · rw [hnone, hnone']
      · rw [nextNum, grow, eachSet] at hpsp
        obtain ⟨psp', hpsp', rfl⟩ := List.mem_map.mp hpsp
        refine ⟨psp', hpsp', rfl, fun i hi => ?_⟩
        rw [hnone] at hi
        cases hi
  · rw [if_neg hcount]
    have hle := h.count_le
    refine ⟨_, _, rfl, Nat.lt_succ_self _, ?_, rfl, rfl, fun _ => rfl,
      fun psp hpsp => ⟨psp, hpsp, rfl, fun _ _ => rfl⟩⟩
    refine ⟨Nat.lt_of_le_of_ne hle hcount, fun i p hp => ?_, fun i hi hne => ?_, h.sizes, h.names,
      h.names_ne, h.blocks⟩
    · exact (h.live i p hp).imp_left Nat.lt_succ_of_lt
    · refine h.dead i (Nat.lt_of_le_of_ne (Nat.le_of_lt_succ hi) ?_) (Option.some_ne_none i)
      exact fun heq => hne (congrArg some heq)

theorem live_place_self : (m.place num name kind).live num = some (name, kind) := by
  simp [place, eachSet, live]

theorem live_place_of_ne (h : i ≠ num) : (m.place num name kind).live i = m.live i := by
  simp [place, eachSet, live, Function.update_of_ne h]

theorem numOf_place_self : (m.place num name kind).numOf num = num := by
  simp [place, eachSet, numOf]

theorem numOf_place_of_ne (h : i ≠ num) : (m.place num name kind).numOf i = m.numOf i := by
  simp [place, eachSet, numOf, Function.update_of_ne h]

theorem Shape.setFromConf_eq {n : Option ℕ} (h : m.Shape n) (name : Bytes) (kind : PrivilegeType)
    (num : ℕ) (hclp : findNamed psp.name m.confs.blocks = some clp) :
    ∃ s, Setting m.confs name clp s ∧ m.setFromConf name kind num psp =
      (psp.put num (.val (kind.valueOf s)), decide (psp.size ≤ num)) := by
  rw [setFromConf, confFind_eq h.blocks, hclp]
  exact h.setPrivilegeInSet_eq name kind num psp clp

theorem setFromConf_name : (m.setFromConf name kind num psp).1.name = psp.name := by
  rw [setFromConf]
  split
  · rfl
  · rfl
  · rw [setPrivilegeInSet]
    split
    · rfl
    · rfl

theorem setFromConf_size : (m.setFromConf name kind num psp).1.size = psp.size := by
  rw [setFromConf]
  split
  · rfl
  · rfl
  · rw [setPrivilegeInSet]
    split
    · rfl
    · rfl

theorem Shape.place (h : m.Shape (some num)) (hlt : num < m.count) :
    (m.place num name kind).Shape none := by
  have hmap := h.mapSets (f := fun psp => (m.setFromConf name kind num psp).1)
    (fun _ => setFromConf_name) fun _ => setFromConf_size
  refine ⟨h.count_le, fun i p hp => ?_, fun i hi _ hnone => ?_, hmap.sizes, hmap.names,
    hmap.names_ne, h.blocks⟩
  · by_cases hin : i = num
    · subst hin
      exact ⟨hlt, numOf_place_self⟩
    · rw [live_place_of_ne hin] at hp
      rw [numOf_place_of_ne hin]
      exact h.live i p hp
  · by_cases hin : i = num
    · subst hin
      rw [live_place_self] at hnone
      cases hnone
    · rw [live_place_of_ne hin] at hnone
      rw [numOf_place_of_ne hin]
      exact h.dead i hi (fun heq => hin (Option.some.inj heq)) hnone

/-- A new privilege gets the proper value in all sets, if the configuration has them. -/
theorem Proper.place (hp : m.Proper) (h : m.Shape (some num)) (hlt : num < m.count)
    (hconf : ∀ psp ∈ m.sets, findNamed psp.name m.confs.blocks ≠ none) :
    (m.place num name kind).Proper where
  safe := by
    rw [Privileges.place, eachSet]
    dsimp only
    rw [hp.safe, Bool.false_or, List.any_eq_false]
    intro psp hpsp
    obtain ⟨clp, hclp⟩ := Option.ne_none_iff_exists'.mp (hconf psp hpsp)
    obtain ⟨s, -, heq⟩ := h.setFromConf_eq name kind num hclp
    have hle := h.count_le
    rw [heq, h.sizes psp hpsp, decide_eq_true_eq]
    omega
  values psp' hpsp' i p hlive := by
    obtain ⟨psp, hpsp, rfl⟩ := List.mem_map.mp hpsp'
    obtain ⟨clp, hclp⟩ := Option.ne_none_iff_exists'.mp (hconf psp hpsp)
    obtain ⟨s, hs, heq⟩ := h.setFromConf_eq name kind num hclp
    rw [heq]
    by_cases hin : i = num
    · subst hin
      rw [live_place_self] at hlive
      obtain rfl := Option.some.inj hlive
      refine ⟨_, PrivilegeSet.put_vals_self .., ?_⟩
      change ProperValue m.confs psp.name (name, kind) _
      rw [ProperValue, hclp]
      exact ⟨s, hs, rfl⟩
    · rw [live_place_of_ne hin] at hlive
      rw [PrivilegeSet.put_vals_of_ne _ _ hin]
      exact hp.values psp hpsp i p hlive

theorem Proper.createPrivilege (hp : m.Proper) (h : m.Shape none)
    (hsuit : m.Suitable (.createPrivilege name kind)) :
    (m.createPrivilege name kind).2.Shape none ∧ (m.createPrivilege name kind).2.Proper := by
  rw [Privileges.createPrivilege]
  by_cases hname : name = []
  · rw [if_pos hname]
    exact ⟨h, hp⟩
  rw [if_neg hname]
  cases hfind : m.findPrivilege name with
  | some i => exact ⟨h, hp⟩
  | none =>
    obtain ⟨hfull, hconf⟩ := hsuit hname hfind
    obtain ⟨num, m', heq, hlt, hshape, hconfs, hfault, hlive, hsets⟩ := h.allot_spec hfull
    rw [if_neg (by simp), heq]
    have hconf' : ∀ psp ∈ m'.sets, findNamed psp.name m'.confs.blocks ≠ none := by
      intro psp' hpsp'
      obtain ⟨psp, hpsp, hsame, -⟩ := hsets psp' hpsp'
      rw [hsame, hconfs]
      exact hconf psp hpsp
    have hp' : m'.Proper := by
      refine ⟨hfault.trans hp.safe, fun psp' hpsp' i p hi => ?_⟩
      obtain ⟨psp, hpsp, hsame, hvals⟩ := hsets psp' hpsp'
      rw [hlive] at hi
      rw [hvals i (Option.isSome_of_mem hi), hsame, hconfs]
      exact hp.values psp hpsp i p hi
    exact ⟨hshape.place hlt, hp'.place hshape hlt hconf'⟩

/-! ### Privileges that go -/

theorem live_unset {j : ℕ} : (m.unset i).live j = if j = i then none else m.live j := by
  dsimp only [unset, eachSet, live]
  by_cases hj : j = i
  · rw [if_pos hj, hj, Function.update_self]
    rfl
  · rw [if_neg hj, Function.update_of_ne hj]

theorem numOf_unset_self : (m.unset i).numOf i = -1 := by simp [unset, eachSet, numOf]

theorem numOf_unset_of_ne {j : ℕ} (h : j ≠ i) : (m.unset i).numOf j = m.numOf j := by
  simp [unset, eachSet, numOf, Function.update_of_ne h]

theorem Shape.unset (h : m.Shape none) : (m.unset i).Shape none := by
  have hmap := h.mapSets (f := fun psp => psp.put i .null) (fun _ => rfl) fun _ => rfl
  refine ⟨h.count_le, fun j p hp => ?_, fun j hj _ hnone => ?_, hmap.sizes, hmap.names,
    hmap.names_ne, h.blocks⟩
  · rw [live_unset] at hp
    by_cases hji : j = i
    · rw [if_pos hji] at hp
      cases hp
    · rw [if_neg hji] at hp
      rw [numOf_unset_of_ne hji]
      exact h.live j p hp
  · by_cases hji : j = i
    · rw [hji, numOf_unset_self]
      decide
    · rw [live_unset, if_neg hji] at hnone
      rw [numOf_unset_of_ne hji]
      exact h.dead j hj (Option.some_ne_none j) hnone

theorem Proper.unset (hp : m.Proper) (h : m.Shape none) (hi : i < m.count)
    (hfree : ∀ psp ∈ m.sets, (psp.vals i).freeable = true) : (m.unset i).Proper where
  safe := by
    dsimp only [Privileges.unset, eachSet]
    rw [hp.safe, Bool.false_or, List.any_eq_false]
    intro psp hpsp
    have hroom : ¬ psp.size ≤ i := by
      rw [h.sizes psp hpsp]
      exact Nat.not_le.mpr (Nat.lt_of_lt_of_le hi h.count_le)
    rw [hfree psp hpsp, decide_eq_false hroom]
    exact Bool.false_ne_true
  values psp' hpsp' j p hlive := by
    obtain ⟨psp, hpsp, rfl⟩ := List.mem_map.mp hpsp'
    rw [live_unset] at hlive
    by_cases hji : j = i
    · rw [if_pos hji] at hlive
      cases hlive
    · rw [if_neg hji] at hlive
      rw [PrivilegeSet.put_vals_of_ne _ _ hji]
      exact hp.values psp hpsp j p hlive

theorem Proper.destroyPrivilege {num : ℤ} (hp : m.Proper) (h : m.Shape none)
    (hsuit : m.Suitable (.destroyPrivilege num)) :
    (m.destroyPrivilege num).Shape none ∧ (m.destroyPrivilege num).Proper := by
  rw [Privileges.destroyPrivilege]
  by_cases hcount : m.count ≤ num
  · rw [if_pos hcount]
    exact ⟨h, hp⟩
  rcases hsuit with hcount' | ⟨hpos, hfree⟩
  · exact absurd hcount' hcount
  · rw [if_neg hcount, if_neg (Int.not_lt.mpr hpos)]
    exact ⟨h.unset, hp.unset h (by omega) hfree⟩

/-! ### Configurations -/

theorem ProperValue.unique {p : Bytes × PrivilegeType} {v v' : PrivilegeVal}
    (h : ProperValue confs name p v) (h' : ProperValue confs name p v') : v = v' := by
  rw [ProperValue] at h h'
  cases hfind : findNamed name confs.blocks with
  | none =>
    rw [hfind] at h h'
    exact h.trans h'.symm
  | some clp =>
    rw [hfind] at h h'
    obtain ⟨s, hs, rfl⟩ := h
    obtain ⟨s', hs', rfl⟩ := h'
    rw [hs.unique hs']

theorem Proper.createPrivilegeSet (hp : m.Proper) (h : m.Shape none)
    (hsuit : m.Suitable (.createPrivilegeSet name clp)) :
    (m.createPrivilegeSet name clp).Shape none ∧ (m.createPrivilegeSet name clp).Proper := by
  obtain ⟨hname, hagrees⟩ := hsuit
  obtain ⟨sets, heq, hshape, hsets⟩ := h.createPrivilegeSet_spec hname clp fun psp hpsp i hi => by
    obtain ⟨p, hlive⟩ := Option.isSome_iff_exists.mp hi
    obtain ⟨v, hv, -⟩ := hp.values psp hpsp i p hlive
    rw [hv]
    rfl
  rw [heq]
  refine ⟨hshape, hp.safe, fun psp hpsp i p hlive => ?_⟩
  rcases hsets psp hpsp with ⟨hsame, hfilled⟩ | ⟨hold, -⟩
  · obtain ⟨s, hs, hval⟩ := hfilled i p hlive
    refine ⟨_, hval, (properValue_congr hsame).mpr ?_⟩
    exact properValue_iff_of_agrees (hagrees i p hlive) hs
  · exact hp.values psp hold i p hlive

theorem findNamed_concat {block : Option Bytes × PrivilegeConf} :
    findNamed data (blocks ++ [block]) = none ↔
      findNamed data blocks = none ∧ (block.1.any fun s => sameCase s data) = false := by
  simp only [findNamed, Option.map_eq_none_iff, List.find?_append, Option.or_eq_none_iff,
    List.find?_singleton, ite_eq_right_iff, reduceCtorEq, imp_false, Bool.not_eq_true]

variable (m confs) in
/-- Some blocks of a new configuration have been parsed: each set is filled in from the last block
with its name, or there has been none. -/
structure Rehashed (done : List (Option Bytes × PrivilegeConf)) (m' : Privileges) : Prop where
  shape : m'.Shape none
  safe : m'.fault = false
  confs_eq : m'.confs = confs
  live : ∀ i, m'.live i = m.live i
  sets : ∀ psp ∈ m'.sets,
    (∃ before name clp after, done = before ++ (some name, clp) :: after ∧ name ≠ [] ∧
      sameCase psp.name name = true ∧ findNamed psp.name after = none ∧ m'.Filled clp psp) ∨
    psp ∈ m.sets ∧ findNamed psp.name done = none

theorem Rehashed.freeable {done : List (Option Bytes × PrivilegeConf)} {m' : Privileges}
    (hp : m.Proper) (hr : m.Rehashed confs done m') (hpsp : psp ∈ m'.sets)
    (hi : (m'.live i).isSome) : (psp.vals i).freeable = true := by
  obtain ⟨p, hlive⟩ := Option.isSome_iff_exists.mp hi
  rcases hr.sets psp hpsp with ⟨_, _, _, _, -, -, -, -, hfilled⟩ | ⟨hold, -⟩
  · obtain ⟨s, -, hval⟩ := hfilled i p hlive
    rw [hval]
    rfl
  · rw [hr.live] at hlive
    obtain ⟨v, hv, -⟩ := hp.values psp hold i p hlive
    rw [hv]
    rfl

theorem Rehashed.parseBlock {done : List (Option Bytes × PrivilegeConf)} {m' : Privileges}
    (hp : m.Proper) (hr : m.Rehashed confs done m') (block : Option Bytes × PrivilegeConf) :
    m.Rehashed confs (done ++ [block]) (m'.parseBlock block) := by
  have hskip : (∀ psp ∈ m'.sets, (block.1.any fun s => sameCase s psp.name) = false) →
      m.Rehashed confs (done ++ [block]) m' := by
    intro hother
    refine ⟨hr.shape, hr.safe, hr.confs_eq, hr.live, fun psp hpsp => ?_⟩
    rcases hr.sets psp hpsp with ⟨before, name, clp, after, hdone, hne, hsame, hafter, hfilled⟩ |
      ⟨hold, hdone⟩
    · refine .inl ⟨before, name, clp, after ++ [block], ?_, hne, hsame, ?_, hfilled⟩
      · rw [hdone, List.append_assoc, List.cons_append]
      · exact findNamed_concat.mpr ⟨hafter, hother psp hpsp⟩
    · exact .inr ⟨hold, findNamed_concat.mpr ⟨hdone, hother psp hpsp⟩⟩
  obtain ⟨name | name, clp⟩ := block
  · exact hskip fun _ _ => rfl
  · rw [Privileges.parseBlock]
    by_cases hname : name = []
    · rw [if_pos hname]
      refine hskip fun psp hpsp => ?_
      rw [Option.any_some, Bool.eq_false_iff]
      intro hsame
      refine hr.shape.names_ne psp hpsp
        (List.map_eq_nil_iff.mp ((sameCase_iff.mp hsame).symm.trans ?_))
      rw [hname, List.map_nil]
    · rw [if_neg hname]
      obtain ⟨sets, heq, hshape, hsets⟩ := hr.shape.createPrivilegeSet_spec hname clp
        fun psp hpsp i hi => hr.freeable hp hpsp hi
      rw [heq]
      refine ⟨hshape, hr.safe, hr.confs_eq, hr.live, fun psp hpsp => ?_⟩
      rcases hsets psp hpsp with ⟨hsame, hfilled⟩ | ⟨hold, hsame⟩
      · exact .inl ⟨done, name, clp, [], rfl, hname, hsame, rfl, hfilled⟩
      · have hother : ((some name).any fun s => sameCase s psp.name) = false := by
          rw [Option.any_some, sameCase_comm]
          exact hsame
        rcases hr.sets psp hold with
          ⟨before, name', clp', after, hdone, hne, hsame', hafter, hfilled⟩ | ⟨hold', hdone⟩
        · refine .inl
            ⟨before, name', clp', after ++ [(some name, clp)], ?_, hne, hsame', ?_, hfilled⟩
          · rw [hdone, List.append_assoc, List.cons_append]
          · exact findNamed_concat.mpr ⟨hafter, hother⟩
        · exact .inr ⟨hold', findNamed_concat.mpr ⟨hdone, hother⟩⟩

theorem Rehashed.foldl {done rest : List (Option Bytes × PrivilegeConf)} {m' : Privileges}
    (hp : m.Proper) (hr : m.Rehashed confs done m') :
    m.Rehashed confs (done ++ rest) (rest.foldl Privileges.parseBlock m') := by
  induction rest generalizing done m' with
  | nil => rwa [List.append_nil]
  | cons block rest ih =>
    have hstep := ih (hr.parseBlock hp block)
    rwa [List.append_assoc, List.cons_append, List.nil_append] at hstep

theorem Proper.rehash (hp : m.Proper) (h : m.Shape none) (hsuit : m.Suitable (.rehash confs)) :
    (m.rehash confs).Shape none ∧ (m.rehash confs).Proper := by
  obtain ⟨hnamed, hgone, hlast⟩ := hsuit
  have hstart : m.Rehashed confs [] { m with confs := confs } := by
    refine ⟨⟨h.count_le, h.live, h.dead, h.sizes, h.names, h.names_ne, hnamed⟩, hp.safe, rfl,
      fun _ => rfl, fun psp hpsp => .inr ⟨hpsp, rfl⟩⟩
  have hall : m.Rehashed confs ([] ++ confs.blocks) (m.rehash confs) := hstart.foldl hp
  refine ⟨hall.shape, hall.safe, fun psp hpsp i p hlive => ?_⟩
  have hlive' : p ∈ m.live i := by
    rw [← hall.live i]
    exact hlive
  rw [hall.confs_eq]
  rcases hall.sets psp hpsp with ⟨before, name, clp, after, hsplit, hne, hsame, hafter, hfilled⟩ |
    ⟨hold, hnone⟩
  · obtain ⟨s, hs, hval⟩ := hfilled i p hlive
    rw [hall.confs_eq] at hs
    rw [findNamed_congr hsame] at hafter
    refine ⟨_, hval, (properValue_congr hsame).mpr ?_⟩
    exact properValue_iff_of_agrees (hlast before name clp after hsplit hne hafter i p hlive') hs
  · obtain ⟨v, hv, hproper⟩ := hp.values psp hold i p hlive'
    refine ⟨v, hv, ?_⟩
    rw [ProperValue, show findNamed psp.name confs.blocks = none from hnone]
    exact hproper.unique (hgone psp hold hnone i p hlive')

/-! ### Runs -/

theorem Proper.step {m' : Privileges} {act : Action} (hm : m.Shape none ∧ m.Proper)
    (hsuit : m.Suitable act) (hstep : m.step act = some m') : m'.Shape none ∧ m'.Proper := by
  obtain ⟨h, hp⟩ := hm
  cases act with
  | rehash confs =>
    obtain rfl := Option.some.inj hstep
    exact hp.rehash h hsuit
  | createPrivilege name kind =>
    obtain rfl := Option.some.inj hstep
    exact hp.createPrivilege h hsuit
  | createPrivilegeSet name clp =>
    obtain rfl := Option.some.inj hstep
    exact hp.createPrivilegeSet h hsuit
  | destroyPrivilege num =>
    obtain rfl := Option.some.inj hstep
    exact hp.destroyPrivilege h hsuit

theorem shape_start : start.Shape none where
  count_le := Nat.le_refl _
  live i p hp := by cases hp
  dead i hi := absurd hi (Nat.not_lt_zero i)
  sizes psp hpsp := by cases hpsp
  names := List.Pairwise.nil
  names_ne psp hpsp := by cases hpsp
  blocks block hblock := by cases hblock

theorem proper_start : start.Proper where
  safe := rfl
  values psp hpsp := by cases hpsp

/-- In every state reached by suitable steps each set has its proper value for each privilege,
whichever came first, and no access was wrong. -/
theorem proper_of_run {before behind : List Action} {t : Privileges}
    (hall : Run.Along step Suitable start (before ++ behind))
    (hrun : Run.run step start before = some t) : t.Proper :=
  (Run.reached_of_along (fun _ _ _ hm hsuit hstep => Proper.step hm hsuit hstep)
    ⟨shape_start, proper_start⟩ hall hrun).2

end

/-- Two sets, of which the first includes the second. -/
def operConfs : PrivilegeConfs where
  blocks := [(some (bytes "oper"), [(bytes "include", ⟨bytes "local", by decide⟩)]),
    (some (bytes "local"), [(bytes "kill", ⟨bytes "local", by decide⟩)])]
  acyclic := ⟨fun clp => (includeEntries clp).length, by decide +kernel⟩

/-- Can one kill? -/
def killType : PrivilegeType := .tuple 0 [(bytes "local", 1), (bytes "global", 2)]

/-- The privilege is created after the sets. -/
def lateKill : List Action := [.rehash operConfs, .createPrivilege (bytes "kill") killType]

theorem proper_of_run_lateKill :
    ∃ t, Run.run step start lateKill = some t ∧ t.Proper ∧
      t.sets.map (fun psp => psp.vals 0) = [.val (.num 1), .val (.num 1)] := by
  have hvals : (Run.run step start lateKill).map (fun t => t.sets.map fun psp => psp.vals 0) =
      some [.val (.num 1), .val (.num 1)] := by decide +kernel
  obtain ⟨t, hrun, hval⟩ := Option.map_eq_some_iff.mp hvals
  refine ⟨t, hrun, @proper_of_run lateKill [] t ?_ hrun, hval⟩
  refine ⟨⟨by decide +kernel, fun psp hpsp => ?_, fun _ _ _ _ _ _ _ i p hp => ?_⟩, ?_⟩
  · cases hpsp
  · cases hp
  · intro m hm
    obtain rfl := Option.some.inj hm
    refine ⟨fun _ _ => ⟨?_, by decide +kernel⟩, fun _ _ => trivial⟩
    rintro ⟨-, hsize, -⟩
    exact hsize (by decide +kernel)

/-- One set. -/
def plainConfs : PrivilegeConfs where
  blocks := [(some (bytes "local"), [])]
  acyclic := ⟨fun _ => 0, by decide +kernel⟩

/-- A set goes from the configuration, and then a privilege is created. -/
def goneSet : List Action :=
  [.rehash operConfs, .rehash plainConfs, .createPrivilege (bytes "kill") killType]

/-- The set has no value for it. -/
theorem privileges_fails : ¬ ∀ (acts : List Action) (t : Privileges),
    Run.run step start acts = some t → t.Proper := by
  intro hall
  have hvals : (Run.run step start goneSet).map
      (fun t => (t.live 0, t.sets.map fun psp => psp.vals 0)) =
      some (some (bytes "kill", killType), [.null, .val (.num 0)]) := by
    decide +kernel
  obtain ⟨t, hrun, hval⟩ := Option.map_eq_some_iff.mp hvals
  obtain ⟨hlive, hsets⟩ := Prod.mk.inj hval
  have hfirst : ValPtr.null ∈ t.sets.map fun psp => psp.vals 0 := by
    rw [hsets]
    simp
  obtain ⟨psp, hpsp, hnull⟩ := List.mem_map.mp hfirst
  obtain ⟨v, hv, -⟩ := (hall goneSet t hrun).values psp hpsp 0 _ hlive
  cases hnull.symm.trans hv

end Privileges

end Ithildin
