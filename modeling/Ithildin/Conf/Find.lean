import Ithildin.Conf.Parse
import Ithildin.Lib.Cursor
import Ithildin.Match

/-!
# Searching a configuration

`conf_find`, `conf_find_next`, `conf_find_entry` and `conf_find_entry_next` of `conf.c`.

* `ConfNode`, `ConfList`: the entries in memory, each at its own address, as are their strings;
* `ConfList.ofEntries`: what was read of a file is such a list;
* `ConfNode.confFind`: a search to some depth, which compares strings that may be missing;
* `ConfNode.confFindNext`, `ConfNode.confFindEntryNext`: a search on from what was returned last;
* `ConfSearch`: either of these with its filters;
* `enumeration_iff`: when the calls from NULL on return just what is asked for.
-/

namespace Ithildin

/-- `CONF_TYPE_LIST` and `CONF_TYPE_DATA`. -/
inductive ConfType
  | list
  | data
  deriving DecidableEq

/-- A string and where it is. -/
structure ConfString where
  ptr : ℕ
  text : Bytes

/-- `conf_entry_t` and where it is; data has a string always, a list may have none. -/
inductive ConfNode
  | data (ptr : ℕ) (name : Bytes) (string : ConfString)
  | list (ptr : ℕ) (name : Bytes) (string : Option ConfString) (entries : List ConfNode)

namespace ConfNode

def ptr : ConfNode → ℕ
  | data ptr _ _ => ptr
  | list ptr _ _ _ => ptr

def name : ConfNode → Bytes
  | data _ name _ => name
  | list _ name _ _ => name

def string : ConfNode → Option ConfString
  | data _ _ string => some string
  | list _ _ string _ => string

def type : ConfNode → ConfType
  | data _ _ _ => .data
  | list _ _ _ _ => .list

/-- Where the string is; nothing for NULL. -/
def stringPtr (cep : ConfNode) : Option ℕ := cep.string.map ConfString.ptr

end ConfNode

/-- `conf_list_t`: no two entries are in one place, and no two strings. -/
structure ConfList where
  entries : List ConfNode
  nodup : (entries.map ConfNode.ptr).Nodup
  nodup_strings : (entries.filterMap ConfNode.stringPtr).Nodup

/-! ### Entries that were read -/

mutual

/-- An entry less where it is. -/
def ConfNode.entry : ConfNode → ConfEntry
  | .data _ name string => .data name string.text
  | .list _ name string entries => .list name (string.map ConfString.text) (entriesOf entries)

def entriesOf : List ConfNode → List ConfEntry
  | [] => []
  | cep :: rest => cep.entry :: entriesOf rest

end

mutual

/-- An entry at an address, with its string. -/
def ConfEntry.place (ptr : ℕ) : ConfEntry → ConfNode
  | .data name string => .data ptr name ⟨ptr, string⟩
  | .list name string entries => .list ptr name (string.map (⟨ptr, ·⟩)) (placeAll ptr entries)

/-- Entries from an address on. -/
def placeAll (ptr : ℕ) : List ConfEntry → List ConfNode
  | [] => []
  | entry :: rest => entry.place ptr :: placeAll (ptr + 1) rest

end

mutual

theorem entry_place (ptr : ℕ) (entry : ConfEntry) : (entry.place ptr).entry = entry := by
  cases entry with
  | data name string => rfl
  | list name string entries =>
    rw [ConfEntry.place, ConfNode.entry, entriesOf_placeAll]
    cases string <;> rfl

theorem entriesOf_placeAll (ptr : ℕ) (entries : List ConfEntry) :
    entriesOf (placeAll ptr entries) = entries := by
  cases entries with
  | nil => rfl
  | cons entry rest => rw [placeAll, entriesOf, entry_place, entriesOf_placeAll]

end

theorem ptr_place (ptr : ℕ) (entry : ConfEntry) : (entry.place ptr).ptr = ptr := by
  cases entry <;> rfl

theorem stringPtr_place {ptr ptr' : ℕ} {entry : ConfEntry}
    (h : (entry.place ptr).stringPtr = some ptr') : ptr' = ptr := by
  cases entry with
  | data name string => exact (Option.some.inj h).symm
  | list name string entries =>
    cases string with
    | none => cases h
    | some string => exact (Option.some.inj h).symm

theorem le_of_mem_placeAll {ptr : ℕ} {entries : List ConfEntry} {cep : ConfNode}
    (h : cep ∈ placeAll ptr entries) : ptr ≤ cep.ptr ∧ ∀ ptr' ∈ cep.stringPtr, ptr ≤ ptr' := by
  induction entries generalizing ptr with
  | nil => cases h
  | cons entry rest ih =>
    rcases List.mem_cons.mp h with rfl | h
    · exact ⟨(ptr_place ptr entry).ge, fun ptr' hptr => (stringPtr_place hptr).ge⟩
    · obtain ⟨hle, hstring⟩ := ih h
      exact ⟨by omega, fun ptr' hptr => by have := hstring ptr' hptr; omega⟩

theorem nodup_placeAll (ptr : ℕ) (entries : List ConfEntry) :
    ((placeAll ptr entries).map ConfNode.ptr).Nodup ∧
      ((placeAll ptr entries).filterMap ConfNode.stringPtr).Nodup := by
  induction entries generalizing ptr with
  | nil => exact ⟨.nil, .nil⟩
  | cons entry rest ih =>
    obtain ⟨hptrs, hstrings⟩ := ih (ptr + 1)
    constructor
    · refine List.nodup_cons.mpr ⟨fun hmem => ?_, hptrs⟩
      obtain ⟨cep, hcep, heq⟩ := List.mem_map.mp hmem
      have hle := (le_of_mem_placeAll hcep).1
      rw [heq, ptr_place] at hle
      omega
    · rw [placeAll]
      cases hptr : (entry.place ptr).stringPtr with
      | none => rwa [List.filterMap_cons_none hptr]
      | some ptr' =>
        rw [List.filterMap_cons_some hptr]
        refine List.nodup_cons.mpr ⟨fun hmem => ?_, hstrings⟩
        obtain ⟨cep, hcep, heq⟩ := List.mem_filterMap.mp hmem
        have hle := (le_of_mem_placeAll hcep).2 ptr' heq
        rw [stringPtr_place hptr] at hle
        omega

/-- What was read of a file, in memory. -/
def ConfList.ofEntries (entries : List ConfEntry) : ConfList :=
  ⟨placeAll 1 entries, (nodup_placeAll 1 entries).1, (nodup_placeAll 1 entries).2⟩

theorem entriesOf_ofEntries (entries : List ConfEntry) :
    entriesOf (ConfList.ofEntries entries).entries = entries :=
  entriesOf_placeAll 1 entries

/-! ### Searches -/

/-- `!strcasecmp(cep->name, name) && (cep->type == type || type == 0)` -/
def ConfNode.named (name : Bytes) (type : Option ConfType) (cep : ConfNode) : Bool :=
  sameCase cep.name name && type.all (cep.type = ·)

namespace ConfNode

/-- The loop of `conf_find` and `conf_find_next`. Nothing comes of it when a string is compared that
is missing. -/
def findLoop (find : List ConfNode → Option (Option ConfNode)) (name : Bytes)
    (data : Option Bytes) (type : Option ConfType) : List ConfNode → Option (Option ConfNode)
  | [] => some none
  | cep :: rest =>
      if cep.named name type then
        match data with
        | none => some (some cep)
        | some data =>
            match cep.string with
            | none => none
            | some string =>
                if sameCase string.text data then some (some cep)
                else findLoop find name (some data) type rest
      else
        match cep with
        | .data _ _ _ => findLoop find name data type rest
        | .list _ _ _ entries =>
            match find entries with
            | none => none
            | some (some tmpcep) => some (some tmpcep)
            | some none => findLoop find name data type rest

/-- `conf_find` -/
def confFind (name : Bytes) (data : Option Bytes) (type : Option ConfType) :
    ℕ → List ConfNode → Option (Option ConfNode)
  | 0, _ => some none
  | maxdepth + 1, entries => findLoop (confFind name data type maxdepth) name data type entries

/-- `conf_find_next`; `last` is where the last entry is. -/
def confFindNext (name : Bytes) (data : Option Bytes) (type : Option ConfType) (last : Option ℕ)
    (entries : List ConfNode) : ℕ → Option (Option ConfNode)
  | 0 => some none
  | maxdepth + 1 =>
      findLoop (confFind name data type maxdepth) name data type
        (last.elim entries fun last => Cursor.behind ptr last entries)

/-- `conf_find_entry` -/
def confFindEntry (name : Bytes) (entries : List ConfNode) (maxdepth : ℕ) :
    Option (Option ConfString) :=
  (confFind name none (some .data) maxdepth entries).map (·.bind string)

/-- The loop of `conf_find_entry_next`; `last` is where the last string is. -/
def entryLoop (find : List ConfNode → Option (Option ConfString)) (name : Bytes)
    (last : Option ℕ) : Bool → List ConfNode → Option (Option ConfString)
  | _, [] => some none
  | false, cep :: rest => entryLoop find name last (cep.stringPtr = last) rest
  | true, .data _ name' string :: rest =>
      if sameCase name' name then some (some string) else entryLoop find name last true rest
  | true, .list _ _ _ entries :: rest =>
      match find entries with
      | none => none
      | some (some s) => some (some s)
      | some none => entryLoop find name last true rest

/-- `conf_find_entry_next` -/
def confFindEntryNext (name : Bytes) (last : Option ℕ) (entries : List ConfNode) :
    ℕ → Option (Option ConfString)
  | 0 => some none
  | maxdepth + 1 =>
      entryLoop (fun entries => confFindEntry name entries maxdepth) name last last.isNone entries

end ConfNode

/-! ### Searches at one level -/

/-- `conf_find_next` or `conf_find_entry_next`, with what they look for. -/
inductive ConfSearch
  | next (name : Bytes) (data : Option Bytes) (type : Option ConfType)
  | entryNext (name : Bytes)

namespace ConfSearch

/-- A call at depth 1, from the pointer that was returned last; nothing if it reads at NULL. -/
def call (list : ConfList) : ConfSearch → Option ℕ → Option (Option ℕ)
  | next name data type, last =>
      (ConfNode.confFindNext name data type last list.entries 1).map (·.map ConfNode.ptr)
  | entryNext name, last =>
      (ConfNode.confFindEntryNext name last list.entries 1).map (·.map ConfString.ptr)

/-- The entry is one to be returned. -/
def matching : ConfSearch → ConfNode → Bool
  | next name data type, cep => cep.named name type &&
      data.all fun data => cep.string.any fun string => sameCase string.text data
  | entryNext name, cep => cep.named name (some .data)

/-- The pointer that is returned for an entry. -/
def pointer : ConfSearch → ConfNode → Option ℕ
  | next _ _ _, cep => some cep.ptr
  | entryNext _, cep => cep.stringPtr

/-- The calls from NULL on, until one returns NULL, return what is asked for in the order of the
list, each once. -/
def Enumerates (list : ConfList) (search : ConfSearch) : Prop :=
  Cursor.Yields (search.call list) none
    ((list.entries.filter search.matching).filterMap search.pointer)

/-- The entry has its string compared and has none. -/
def unreadable : ConfSearch → ConfNode → Bool
  | next name data type, cep => cep.named name type && data.isSome && cep.string.isNone
  | entryNext _, _ => false

/-- A value is looked for only where all entries that may have it have a string. -/
def Readable (list : ConfList) : ConfSearch → Prop
  | next _ none _ => True
  | next name (some _) type => ∀ cep ∈ list.entries, cep.named name type = true → cep.string ≠ none
  | entryNext _ => True

variable {list : ConfList} {search : ConfSearch} {name : Bytes} {data : Option Bytes}
  {type : Option ConfType}

theorem readable_iff :
    search.Readable list ↔ ∀ cep ∈ list.entries, search.unreadable cep = false := by
  cases search with
  | next name data type =>
    cases data with
    | none => simp [Readable, unreadable]
    | some data =>
      simp [Readable, unreadable, Option.isNone_eq_false_iff, Option.isSome_iff_ne_none]
  | entryNext name => simp [Readable, unreadable]

/-- At one level lists are not entered. -/
theorem findLoop_eq_scan (l : List ConfNode) :
    ConfNode.findLoop (ConfNode.confFind name data type 0) name data type l =
      Cursor.scan (next name data type).unreadable (next name data type).matching l := by
  induction l with
  | nil => rfl
  | cons cep l ih =>
    rw [ConfNode.findLoop.eq_def, Cursor.scan]
    cases hnamed : cep.named name type with
    | false =>
      cases cep <;> simp [unreadable, matching, hnamed, ConfNode.confFind, ← ih]
    | true =>
      cases data with
      | none => simp [unreadable, matching, hnamed]
      | some data => cases hstring : cep.string <;> simp [unreadable, matching, hnamed, hstring, ih]

theorem entryLoop_eq_scan (last : Option ℕ) (l : List ConfNode) :
    ConfNode.entryLoop (fun list => ConfNode.confFindEntry name list 0) name last true l =
      (Cursor.scan (entryNext name).unreadable (entryNext name).matching l).map
        (·.bind ConfNode.string) := by
  induction l with
  | nil => rfl
  | cons cep l ih =>
    rw [Cursor.scan]
    cases cep with
    | data ptr name' string =>
      rw [ConfNode.entryLoop, ih]
      cases hname : sameCase name' name <;>
        simp [unreadable, matching, ConfNode.named, ConfNode.name, ConfNode.type, ConfNode.string,
          hname]
    | list ptr name' string entries =>
      have hdeeper : ConfNode.confFindEntry name entries 0 = some none := rfl
      rw [ConfNode.entryLoop, hdeeper, ih]
      simp [unreadable, matching, ConfNode.named, ConfNode.type]

/-- The entry with the last string is looked for first. -/
theorem entryLoop_behind (find : List ConfNode → Option (Option ConfString)) (last : ℕ)
    (l : List ConfNode) :
    ConfNode.entryLoop find name (some last) false l =
      ConfNode.entryLoop find name (some last) true
        (Cursor.behind ConfNode.stringPtr (some last) l) := by
  induction l with
  | nil => rfl
  | cons cep l ih =>
    rw [ConfNode.entryLoop, Cursor.behind]
    by_cases hlast : cep.stringPtr = some last
    · rw [if_pos hlast, decide_eq_true hlast]
    · rw [if_neg hlast, decide_eq_false hlast, ih]

theorem enumerates_next_iff : (next name data type).Enumerates list ↔
    (next name data type).Readable list := by
  rw [readable_iff, Enumerates]
  refine Cursor.yields_iff (fun last => last.elim list.entries fun last =>
    Cursor.behind ConfNode.ptr last list.entries) list.entries rfl (fun last => ?_) ?_
  · rw [call, ConfNode.confFindNext, findLoop_eq_scan]
    refine congrArg (fun f => Option.map f _) (funext fun o => ?_)
    cases o <;> rfl
  · intro before cep after heq _
    refine ⟨cep.ptr, rfl, ?_⟩
    have hnodup := list.nodup
    rw [heq, List.map_append, List.map_cons] at hnodup
    simp only [Option.elim_some]
    rw [heq]
    exact Cursor.behind_append fun hmem =>
      (List.nodup_append.mp hnodup).2.2 _ hmem _ List.mem_cons_self rfl

theorem enumerates_entryNext_iff :
    (entryNext name).Enumerates list ↔ (entryNext name).Readable list := by
  rw [readable_iff, Enumerates]
  refine Cursor.yields_iff (fun last => last.elim list.entries fun last =>
    Cursor.behind ConfNode.stringPtr (some last) list.entries) list.entries rfl (fun last => ?_) ?_
  · have hloop : ConfNode.confFindEntryNext name last list.entries 1 =
        ConfNode.entryLoop (fun list => ConfNode.confFindEntry name list 0) name last true
          (last.elim list.entries fun last =>
            Cursor.behind ConfNode.stringPtr (some last) list.entries) := by
      cases last with
      | none => rfl
      | some last => exact entryLoop_behind _ last list.entries
    rw [call, hloop, entryLoop_eq_scan, Option.map_map]
    refine congrArg (fun f => Option.map f _) (funext fun o => ?_)
    cases o <;> rfl
  · intro before cep after heq hmatching
    cases cep with
    | list _ _ _ _ => simp [matching, ConfNode.named, ConfNode.type] at hmatching
    | data ptr name' string =>
      refine ⟨string.ptr, rfl, ?_⟩
      have hnodup := list.nodup_strings
      rw [heq, List.filterMap_append, @List.filterMap_cons_some _ _ ConfNode.stringPtr _ _ _ rfl]
        at hnodup
      have hfirst :
          ConfNode.stringPtr (.data ptr name' string) ∉ before.map ConfNode.stringPtr := by
        intro hmem
        obtain ⟨cep, hcep, hptr⟩ := List.mem_map.mp hmem
        exact (List.nodup_append.mp hnodup).2.2 _ (List.mem_filterMap.mpr ⟨cep, hcep, hptr⟩) _
          List.mem_cons_self rfl
      simp only [Option.elim_some]
      rw [heq]
      exact Cursor.behind_append hfirst

/-- Calls of `conf_find_next` or `conf_find_entry_next` from NULL on return the entries, or the
strings, that are asked for, once each and in order, and read no string that is missing, exactly if
no value is looked for among entries of which one with the name and the type has no string. -/
theorem enumeration_iff (list : ConfList) (search : ConfSearch) :
    search.Enumerates list ↔ search.Readable list := by
  cases search with
  | next name data type => exact enumerates_next_iff
  | entryNext name => exact enumerates_entryNext_iff

/-- `acl { };` -/
def namelessAcl : ConfList := .ofEntries [.list (bytes "acl") none []]

theorem enumeration_fails :
    ¬ ∀ (list : ConfList) (search : ConfSearch), search.Enumerates list := by
  intro h
  have hcall := Cursor.Yields.ne_none (h namelessAcl (next (bytes "acl") (some (bytes "a")) none))
  exact hcall rfl

end ConfSearch

end Ithildin
