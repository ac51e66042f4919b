import Ithildin.Client.Privilege
import Ithildin.Conf.Find

/-!
# The search for a privilege

`privilege_find_setting` in any configuration. It calls itself for the blocks that a block includes,
and nothing stops it where the includes go round.

* `includeTargets`: what the `include` entries of a block lead to;
* `SearchesNext`, `Stumbles`: where a search goes on, and where it reads a name that is missing;
* `lookup_terminates_iff`: the searches that end with a value;
* `blocksOf`, `dataOf`: the blocks and entries that the functions of `conf.c` find in memory.
-/

namespace Ithildin

open Relation

/-- The blocks that the `include` entries of a block name, as `conf_find` finds them. -/
def includeTargets (blocks : List (Option Bytes × PrivilegeConf)) (clp : PrivilegeConf) :
    List (Includes.Target PrivilegeConf) :=
  (includeEntries clp).map (confFind · blocks)

/-- The search for a privilege in a block goes on in another: the block does not have it, nor does
any that is reached through an earlier include. -/
def SearchesNext (blocks : List (Option Bytes × PrivilegeConf)) (name : Bytes) :
    PrivilegeConf → PrivilegeConf → Prop :=
  Includes.Goes (confFindEntry name) (includeTargets blocks)

/-- The search in a block comes to an include for which a block without a name is compared. -/
def Stumbles (blocks : List (Option Bytes × PrivilegeConf)) (name : Bytes) (clp : PrivilegeConf) :
    Prop :=
  Includes.Comes (confFindEntry name) (includeTargets blocks) clp none

section
variable {blocks : List (Option Bytes × PrivilegeConf)} {name data : Bytes}
  {clp clp' : PrivilegeConf}

theorem eachInclude_eq (find : PrivilegeConf → Option (Option Bytes)) (ents : List Bytes) :
    eachInclude blocks find ents = Includes.lookAll find (ents.map (confFind · blocks)) := by
  induction ents with
  | nil => rfl
  | cons ent ents ih =>
    rw [eachInclude, List.map_cons]
    rcases confFind ent blocks with - | - | clp
    · rfl
    · exact ih
    · rw [Includes.lookAll]
      dsimp only
      rw [ih]
      rcases find clp with - | - | ret <;> rfl

theorem privilegeFindSetting_eq (depth : ℕ) (clp : PrivilegeConf) :
    privilegeFindSetting blocks name depth clp =
      Includes.look (confFindEntry name) (includeTargets blocks) depth clp := by
  induction depth generalizing clp with
  | zero => rfl
  | succ depth ih =>
    rw [privilegeFindSetting, Includes.look, eachInclude_eq, funext ih]
    cases confFindEntry name clp <;> rfl

theorem mem_blocks_of_confFind (h : confFind data blocks = some (some clp)) :
    clp ∈ blocks.map Prod.snd := by
  induction blocks with
  | nil => cases h
  | cons block blocks ih =>
    obtain ⟨s | s, clp'⟩ := block
    · cases h
    · rw [confFind] at h
      split at h
      · cases h
        exact List.mem_cons_self
      · exact List.mem_cons_of_mem _ (ih h)

/-- Includes lead to blocks of the configuration. -/
theorem finite_included :
    {c | (∃ d, Includes.Leads (includeTargets blocks) c d) ∧
      ReflTransGen (Includes.Leads (includeTargets blocks)) clp c}.Finite := by
  refine (List.finite_toSet (clp :: blocks.map Prod.snd)).subset ?_
  rintro c ⟨-, hreach⟩
  rcases ReflTransGen.cases_tail hreach with rfl | ⟨b, -, hlead⟩
  · exact List.mem_cons_self
  · obtain ⟨ent, -, hfind⟩ := List.mem_map.mp hlead
    exact List.mem_cons_of_mem _ (mem_blocks_of_confFind hfind)

end

/-- The search for a privilege from a block ends with a value exactly if none of the blocks where it
goes on leads it back to itself, and at none of them a missing name is read. -/
theorem lookup_terminates_iff (blocks : List (Option Bytes × PrivilegeConf)) (name : Bytes)
    (kind : PrivilegeType) (clp : PrivilegeConf) :
    (∃ depth v, (privilegeFindSetting blocks name depth clp).map kind.valueOf = some v) ↔
      ∀ clp', ReflTransGen (SearchesNext blocks name) clp clp' →
        ¬ TransGen (SearchesNext blocks name) clp' clp' ∧ ¬ Stumbles blocks name clp' := by
  have hends : (∃ depth v, (privilegeFindSetting blocks name depth clp).map kind.valueOf = some v) ↔
      ∃ depth s, privilegeFindSetting blocks name depth clp = some s := by
    refine exists_congr fun depth => ?_
    simp only [Option.map_eq_some_iff]
    constructor
    · rintro ⟨v, s, hs, -⟩
      exact ⟨s, hs⟩
    · rintro ⟨s, hs⟩
      exact ⟨_, s, hs, rfl⟩
  rw [hends]
  simp only [privilegeFindSetting_eq]
  exact Includes.look_ends_iff finite_included

/-- `privilege-set oper { include oper; };`, less its name. -/
def selfIncluded : PrivilegeConf := [(bytes "include", ⟨bytes "oper", by decide⟩)]

/-- A block that includes itself is searched over and over. -/
theorem lookup_terminates_fails :
    ¬ ∀ (blocks : List (Option Bytes × PrivilegeConf)) (name : Bytes) (kind : PrivilegeType)
      (clp : PrivilegeConf),
      ∃ depth v, (privilegeFindSetting blocks name depth clp).map kind.valueOf = some v := by
  intro hall
  have hown : confFindEntry (bytes "kill") selfIncluded = none := by decide
  have hincl : includeEntries selfIncluded = [bytes "oper"] := by decide
  have hfind : confFind (bytes "oper") [(some (bytes "oper"), selfIncluded)] =
      some (some selfIncluded) := rfl
  have hnone : ∀ depth, privilegeFindSetting [(some (bytes "oper"), selfIncluded)] (bytes "kill")
      depth selfIncluded = none := by
    intro depth
    induction depth with
    | zero => rfl
    | succ depth ih =>
      rw [privilegeFindSetting, hown, hincl]
      dsimp only
      rw [eachInclude, hfind]
      dsimp only
      rw [ih]
  obtain ⟨depth, v, hv⟩ :=
    hall [(some (bytes "oper"), selfIncluded)] (bytes "kill") (.bool 0) selfIncluded
  rw [hnone] at hv
  cases hv

/-! ### The configuration in memory -/

/-- `cep->list` -/
def ConfNode.branch : ConfNode → List ConfNode
  | data _ _ _ => []
  | list _ _ _ entries => entries

/-- The data of a list. -/
def dataOf (entries : List ConfNode) : PrivilegeConf :=
  entries.filterMap fun
    | .data _ name string => if h : string.text ≠ [] then some (name, ⟨string.text, h⟩) else none
    | .list _ _ _ _ => none

/-- The `privilege-set` lists. -/
def blocksOf (confhead : List ConfNode) : List (Option Bytes × PrivilegeConf) :=
  (confhead.filter (·.named (bytes "privilege-set") (some .list))).map fun cep =>
    (cep.string.map ConfString.text, dataOf cep.branch)

/-- No text is empty, as `conf_parse` leaves none. -/
def DataFilled (entries : List ConfNode) : Prop :=
  ∀ cep ∈ entries, cep.type = .data → ∀ string ∈ cep.string, string.text ≠ []

/-- `conf_find("privilege-set", ent, CONF_TYPE_LIST, ...)` -/
theorem confFind_blocksOf (confhead : List ConfNode) (ent : Bytes) :
    confFind ent (blocksOf confhead) =
      (ConfNode.confFind (bytes "privilege-set") (some ent) (some .list) 1 confhead).map
        (·.map fun cep => dataOf cep.branch) := by
  rw [ConfNode.confFind, ConfSearch.findLoop_eq_scan]
  induction confhead with
  | nil => rfl
  | cons cep rest ih =>
    rw [Cursor.scan]
    cases hnamed : cep.named (bytes "privilege-set") (some .list) with
    | false =>
      have hskip : blocksOf (cep :: rest) = blocksOf rest := by
        rw [blocksOf, List.filter_cons_of_neg (by simp [hnamed]), blocksOf]
      rw [hskip, ih]
      simp [ConfSearch.unreadable, ConfSearch.matching, hnamed]
    | true =>
      have hblock : blocksOf (cep :: rest) =
          (cep.string.map ConfString.text, dataOf cep.branch) :: blocksOf rest := by
        rw [blocksOf, List.filter_cons_of_pos hnamed, List.map_cons, blocksOf]
      rw [hblock]
      cases hstring : cep.string with
      | none => simp [confFind, ConfSearch.unreadable, hnamed, hstring]
      | some string =>
        rw [Option.map_some, confFind, ih]
        cases hsame : sameCase string.text ent <;>
          simp [ConfSearch.unreadable, ConfSearch.matching, hnamed, hstring, hsame]

theorem dataOf_data {ptr : ℕ} {name : Bytes} {string : ConfString} (h : string.text ≠ [])
    (rest : List ConfNode) :
    dataOf (.data ptr name string :: rest) = (name, ⟨string.text, h⟩) :: dataOf rest := by
  rw [dataOf, List.filterMap_cons_some]
  · rfl
  · exact dif_pos h

theorem dataOf_list (ptr : ℕ) (name : Bytes) (string : Option ConfString)
    (entries rest : List ConfNode) :
    dataOf (.list ptr name string entries :: rest) = dataOf rest := rfl

/-- `conf_find_entry(name, clp, 1)` -/
theorem confFindEntry_dataOf {clp : List ConfNode} (h : DataFilled clp) (name : Bytes) :
    (ConfNode.confFindEntry name clp 1).map (·.map ConfString.text) =
      some (confFindEntry name (dataOf clp)) := by
  rw [ConfNode.confFindEntry, ConfNode.confFind, ConfSearch.findLoop_eq_scan, Option.map_map]
  induction clp with
  | nil => rfl
  | cons cep rest ih =>
    have hrest := ih fun cep hcep => h cep (List.mem_cons_of_mem _ hcep)
    rw [Cursor.scan]
    cases cep with
    | data ptr name' string =>
      have hne : string.text ≠ [] := h _ List.mem_cons_self rfl string rfl
      rw [dataOf_data hne, confFindEntry, List.find?_cons]
      cases hname : sameCase name' name with
      | false =>
        rw [← confFindEntry, ← hrest]
        simp [ConfSearch.unreadable, ConfSearch.matching, ConfNode.named, ConfNode.name, hname]
      | true =>
        simp [ConfSearch.unreadable, ConfSearch.matching, ConfNode.named, ConfNode.name,
          ConfNode.type, ConfNode.string, hname]
    | list ptr name' string entries =>
      rw [dataOf_list, ← hrest]
      simp [ConfSearch.unreadable, ConfSearch.matching, ConfNode.named, ConfNode.type]

/-- The calls of `conf_find_entry_next("include", ent, clp, 1)`. -/
theorem includeEntries_dataOf {clp : List ConfNode} (h : DataFilled clp) :
    includeEntries (dataOf clp) =
      ((clp.filter (ConfSearch.entryNext (bytes "include")).matching).filterMap
        ConfNode.string).map ConfString.text := by
  induction clp with
  | nil => rfl
  | cons cep rest ih =>
    have hrest := ih fun cep hcep => h cep (List.mem_cons_of_mem _ hcep)
    rw [includeEntries] at hrest ⊢
    cases cep with
    | data ptr name' string =>
      have hne : string.text ≠ [] := h _ List.mem_cons_self rfl string rfl
      rw [dataOf_data hne, List.filter_cons, List.filter_cons]
      cases hname : sameCase name' (bytes "include") <;>
        simp [ConfSearch.matching, ConfNode.named, ConfNode.name, ConfNode.type, ConfNode.string,
          hname, hrest]
    | list ptr name' string entries =>
      rw [dataOf_list, hrest, List.filter_cons]
      simp [ConfSearch.matching, ConfNode.named, ConfNode.type]

end Ithildin
