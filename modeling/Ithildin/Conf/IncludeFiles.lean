import Ithildin.Conf.Parse
import Ithildin.Lib.Includes

/-!
# Files that include files

An entry `$INCLUDE name;` has `conf_parse` call `read_conf` on the file of that name before it goes
on, and `read_conf` parses that in turn. Nothing is kept of the files that are being read.

* `Opens`: the files that a text itself includes, as far as its parse comes;
* `FileIncludes`, `NoCycle`: a file includes another, and none that is reached comes to itself;
* `acc_next_iff`: parsing a text ends exactly if its includes do not come round;
* `includes_terminate_iff`: with finitely many files, the configurations that are read to their end,
  and those that give a tree or a reported failure.
-/

namespace Ithildin

open Relation

/-! ### What follows in a text is shorter -/

/-- What follows the head of an entry. -/
def Item.rest : Item → Option Bytes
  | .done => none
  | .cut => none
  | .data _ _ rest => some rest
  | .sect _ _ rest => some rest

theorem length_of_dropWhile {c : UInt8} {s rest : Bytes} (h : s.dropWhile isSpace = c :: rest) :
    rest.length < s.length := by
  have hdrop := (List.dropWhile_sublist (l := s) isSpace).length_le
  rw [h, List.length_cons] at hdrop
  omega

theorem length_scanValue (s : Bytes) :
    (scanValue s).1.length + (scanValue s).2.length = s.length := by
  induction s with
  | nil => rfl
  | cons c s ih =>
    rw [scanValue]
    split_ifs
    · simp
    · show (c :: (scanValue s).1).length + (scanValue s).2.length = _
      simp only [List.length_cons]
      omega

theorem valueItem_rest {name str rest : Bytes} (h : (valueItem name str).rest = some rest) :
    rest.length < str.length := by
  have hscan := length_scanValue (str.dropWhile isSpace)
  have hdrop := (List.dropWhile_sublist (l := str) isSpace).length_le
  rw [valueItem] at h
  split at h
  · rename_i value rest' hvalue
    have hrest : rest' = rest := by
      dsimp only at h
      split_ifs at h <;> exact Option.some.inj h
    simp only [hvalue, hrest, List.length_cons] at hscan
    omega
  · rename_i value rest' hvalue
    have hrest : rest' = rest := Option.some.inj h
    simp only [hvalue, hrest, List.length_cons] at hscan
    omega
  · cases h

theorem nextItem_rest {text rest : Bytes} (h : (nextItem text).rest = some rest) :
    rest.length < text.length := by
  have hdrop := (List.dropWhile_sublist (l := text) isSpace).length_le
  rw [nextItem] at h
  split at h
  · cases h
  · rename_i c s hstr
    rw [hstr] at hdrop
    have hbehind := (List.dropWhile_sublist (l := c :: s) isNameChar).length_le
    dsimp only at h
    -- the value starts at the head of the entry, or behind its name
    split_ifs at h
    · cases h
    · have := valueItem_rest h
      omega
    · have := valueItem_rest h
      omega
    · have := valueItem_rest h
      omega

theorem SectionEnd.push_eq_found {c : UInt8} {r : SectionEnd} {content rest : Bytes} :
    r.push c = .found content rest ↔
      ∃ content', r = .found content' rest ∧ content = c :: content' := by
  cases r with
  | found content' rest' =>
    constructor
    · intro h
      injection h with hcontent hrest
      exact ⟨content', by rw [hrest], hcontent.symm⟩
    · rintro ⟨content', heq, rfl⟩
      injection heq with hcontent hrest
      rw [hcontent, hrest, push]
  | ended | outside =>
    refine iff_of_false (fun h => ?_) ?_
    · cases h
    · rintro ⟨content', h, -⟩
      cases h

/-- A character that is pushed is one of the section, and one of the text. -/
theorem SectionEnd.push_length {c : UInt8} {r : SectionEnd} {content rest s : Bytes}
    (h : r.push c = .found content rest)
    (ih : ∀ {content}, r = .found content rest → content.length + rest.length < s.length) :
    content.length + rest.length < (c :: s).length := by
  obtain ⟨content, hr, rfl⟩ := push_eq_found.mp h
  have := ih hr
  simp only [List.length_cons]
  omega

theorem scanSection_length {quoted : Bool} {depth : ℕ} {s content behind : Bytes}
    (h : scanSection quoted depth s = .found content behind) :
    content.length + behind.length < s.length := by
  induction quoted, depth, s using scanSection.induct generalizing content with
  | case1 _ =>
    rw [scanSection] at h
    cases h
  | case2 _ =>
    rw [scanSection] at h
    cases h
  | case3 depth s ih =>
    rw [scanSection_quote] at h
    exact SectionEnd.push_length h ih
  | case4 depth s _ ih =>
    rw [scanSection_open] at h
    exact SectionEnd.push_length h ih
  | case5 s =>
    rw [scanSection_close, if_pos rfl] at h
    injection h with hcontent hbehind
    simp [← hcontent, hbehind]
  | case6 depth s hdepth _ _ ih =>
    rw [scanSection_close, if_neg hdepth] at h
    exact SectionEnd.push_length h ih
  | case7 depth c s hquote hopen hclose ih =>
    rw [scanSection_plain depth s hquote hopen hclose] at h
    exact SectionEnd.push_length h ih
  | case8 depth =>
    rw [scanSection] at h
    cases h
  | case9 depth c s ih =>
    rw [scanSection_string_escape] at h
    exact SectionEnd.push_length h fun h' => SectionEnd.push_length h' ih
  | case10 depth s _ ih =>
    rw [scanSection_string_quote] at h
    exact SectionEnd.push_length h ih
  | case11 depth c s hback hquote ih =>
    rw [scanSection_string depth s hquote hback] at h
    exact SectionEnd.push_length h ih

/-! ### Includes -/

/-- The text of a file, if there is the file and `conf_preparse` passes it. -/
def fileText (files : Bytes → Option Bytes) (file : Bytes) : Option Bytes :=
  match (files file).map fun mem => confPreparse (strAt mem) with
  | some (.text text) => some text
  | _ => none

/-- Parsing a text, and not the files that it includes, comes to an include of a file. -/
inductive Opens (files : Bytes → Option Bytes) : Bytes → Bytes → Prop
  | file {text file rest : Bytes} :
      nextItem text = .data includeName file rest → Opens files text file
  | data {text name string rest file : Bytes} :
      nextItem text = .data name string rest → name ≠ includeName → Opens files rest file →
      Opens files text file
  | included {text string rest text' file : Bytes} {entries : List ConfEntry} :
      nextItem text = .data includeName string rest → fileText files string = some text' →
      Denotes files text' entries → Opens files rest file → Opens files text file
  | content {text name rest content behind file : Bytes} {string : Option Bytes} :
      nextItem text = .sect name string rest → scanSection false 1 rest = .found content behind →
      Opens files content file → Opens files text file
  | list {text name rest content behind rest' file : Bytes} {string : Option Bytes}
      {entries : List ConfEntry} :
      nextItem text = .sect name string rest → scanSection false 1 rest = .found content behind →
      Denotes files content entries → behind.dropWhile isSpace = 59 :: rest' →
      Opens files rest' file → Opens files text file

/-- A file includes another. -/
def FileIncludes (files : Bytes → Option Bytes) (file file' : Bytes) : Prop :=
  ∃ text, fileText files file = some text ∧ Opens files text file'

/-- No file that a text includes, directly or through others, includes itself, directly or through
others. -/
def NoCycle (files : Bytes → Option Bytes) (text : Bytes) : Prop :=
  ∀ file file', Opens files text file → ReflTransGen (FileIncludes files) file file' →
    ¬ TransGen (FileIncludes files) file' file'

section
variable {files : Bytes → Option Bytes} {text text' file file' : Bytes}

theorem fileText_eq_some : fileText files file = some text ↔
    ∃ mem, files file = some mem ∧ confPreparse (strAt mem) = .text text := by
  rw [fileText]
  cases files file with
  | none => simp
  | some mem =>
    simp only [Option.map_some, Option.some.injEq, exists_eq_left']
    cases confPreparse (strAt mem) <;> simp

/-- A parse comes to the text of a file that is included. -/
theorem Opens.next (h : Opens files text file) (htext : fileText files file = some text') :
    TransGen (Next files) text' text := by
  induction h with
  | file hitem =>
    obtain ⟨mem, hfile, hpre⟩ := fileText_eq_some.mp htext
    exact .single (.file hitem hfile hpre)
  | data hitem hname _ ih => exact (ih htext).tail (.data hitem hname)
  | included hitem hinc hentries _ ih =>
    obtain ⟨mem, hfile, hpre⟩ := fileText_eq_some.mp hinc
    exact (ih htext).tail (.included hitem hfile hpre hentries)
  | content hitem hscan _ ih => exact (ih htext).tail (.content hitem hscan)
  | list hitem hscan hentries hsemi _ ih =>
    exact (ih htext).tail (.list hitem hscan hentries hsemi)

/-- It comes to those that are included through others, too. -/
theorem Opens.next_of_reaches (h : Opens files text file)
    (hreach : ReflTransGen (FileIncludes files) file file')
    (htext : fileText files file' = some text') : TransGen (Next files) text' text := by
  induction hreach using ReflTransGen.head_induction_on generalizing text with
  | refl => exact h.next htext
  | head hincl _ ih =>
    obtain ⟨mid, hmid, hopens⟩ := hincl
    exact (ih hopens).trans (h.next hmid)

/-- A parse of a text ends if those of the files that the text includes end: the rest of the text
gets shorter. -/
theorem acc_of_opens
    (h : ∀ {file text'}, Opens files text file → fileText files file = some text' →
      Acc (Next files) text') : Acc (Next files) text := by
  induction hlength : text.length using Nat.strong_induction_on generalizing text with
  | _ n ih =>
    subst hlength
    refine .intro text fun text' hnext => ?_
    cases hnext with
    | data hitem hname =>
      refine ih _ (nextItem_rest (by rw [hitem, Item.rest])) (fun hopens => ?_) rfl
      exact h (.data hitem hname hopens)
    | file hitem hfile hpre => exact h (.file hitem) (fileText_eq_some.mpr ⟨_, hfile, hpre⟩)
    | included hitem hfile hpre hentries =>
      refine ih _ (nextItem_rest (by rw [hitem, Item.rest])) (fun hopens => ?_) rfl
      exact h (.included hitem (fileText_eq_some.mpr ⟨_, hfile, hpre⟩) hentries hopens)
    | content hitem hscan =>
      have hrest := @nextItem_rest text _ (by rw [hitem, Item.rest])
      have hlength := scanSection_length hscan
      refine ih _ (by omega) (fun hopens => ?_) rfl
      exact h (.content hitem hscan hopens)
    | list hitem hscan hentries hsemi =>
      have hrest := @nextItem_rest text _ (by rw [hitem, Item.rest])
      have hlength := scanSection_length hscan
      have hrest' := length_of_dropWhile hsemi
      refine ih _ (by omega) (fun hopens => ?_) rfl
      exact h (.list hitem hscan hentries hsemi hopens)

/-- With finitely many files, parsing a text ends exactly if its includes do not come round. -/
theorem acc_next_iff (hfinite : {file | ∃ mem, files file = some mem}.Finite) :
    Acc (Next files) text ↔ NoCycle files text := by
  constructor
  · intro hacc file file' hopens hreach hcycle
    obtain ⟨_, ⟨text', htext, hopens'⟩, hback⟩ := TransGen.head'_iff.mp hcycle
    have hacc' : Acc (Next files) text' :=
      hacc.inv_of_transGen (hopens.next_of_reaches hreach htext)
    exact Includes.not_transGen_of_acc hacc' (hopens'.next_of_reaches hback htext)
  · intro hcycle
    refine acc_of_opens fun {file text'} hopens htext => ?_
    have hfiles : {file' | (∃ file'', FileIncludes files file' file'') ∧
        ReflTransGen (FileIncludes files) file file'}.Finite := by
      refine hfinite.subset ?_
      rintro file ⟨⟨_, text, htext, -⟩, -⟩
      obtain ⟨mem, hfile, -⟩ := fileText_eq_some.mp htext
      exact ⟨mem, hfile⟩
    have hacc := Includes.acc_of_no_cycle hfiles (hcycle file · hopens)
    clear hopens hfiles
    induction hacc generalizing text' with
    | intro file _ ih =>
      exact acc_of_opens fun hopens' htext' => ih _ ⟨text', htext, hopens'⟩ htext'

theorem exists_parses_iff : (∃ o, Parses files text o) ↔ Acc (Next files) text := by
  constructor
  · rintro ⟨o, ho⟩
    exact ho.acc
  · exact exists_parses

/-- Reading a file ends exactly if the parse of its text does. -/
theorem exists_readConf_iff {mem : Bytes} : (∃ n o, readConf files n mem = some o) ↔
    ∀ text, confPreparse (strAt mem) = .text text → ∃ o, Parses files text o := by
  cases hpre : confPreparse (strAt mem) with
  | failed =>
    refine iff_of_true ⟨0, .null, by rw [readConf, hpre]⟩ fun text htext => ?_
    cases htext
  | outside =>
    refine iff_of_true ⟨0, .outside, by rw [readConf, hpre]⟩ fun text htext => ?_
    cases htext
  | text text =>
    simp only [readConf, hpre, Preparsed.text.injEq, forall_eq']
    exact exists_comm

/-- A list of files is finite. -/
theorem finite_lookup (conf : List (Bytes × Bytes)) :
    {file | ∃ mem, conf.lookup file = some mem}.Finite := by
  refine (conf.map Prod.fst).toFinset.finite_toSet.subset ?_
  rintro file ⟨mem, hmem⟩
  obtain ⟨before, after, rfl, -⟩ := List.lookup_eq_some_iff.mp hmem
  simp

end

/-- Reading a configuration of finitely many files ends exactly if no file that it includes,
directly or through others, includes itself. It gives the tree of all the entries, those of the
includes in their places, or a reported failure, exactly if moreover it does not end in the midst of
an escape and does not trip. -/
theorem includes_terminate_iff (conf : List (Bytes × Bytes)) (mem : Bytes) :
    ((∃ n o, readConf (conf.lookup ·) n mem = some o) ↔
      ∀ text, confPreparse (strAt mem) = .text text → NoCycle (conf.lookup ·) text) ∧
    (SafelyRead (conf.lookup ·) mem ↔ (∀ inString, lexState (strAt mem) ≠ .escape inString) ∧
      ∀ text, confPreparse (strAt mem) = .text text →
        NoCycle (conf.lookup ·) text ∧ ¬ Trips (conf.lookup ·) text) := by
  have hacc : ∀ text, Acc (Next (conf.lookup ·)) text ↔ NoCycle (conf.lookup ·) text :=
    fun text => acc_next_iff (finite_lookup conf)
  constructor
  · rw [exists_readConf_iff]
    exact forall₂_congr fun text _ => exists_parses_iff.trans (hacc text)
  · rw [safelyRead_iff_sound]
    refine and_congr_right fun _ => forall₂_congr fun text _ => ?_
    rw [exists_sound_iff, hacc]

/-- The name of the file, `a`. -/
def selfName : Bytes := [97]

/-- `$INCLUDE a;`, and the end of the file. -/
def selfInclude : Bytes := includeName ++ [32] ++ selfName ++ [59, 0]

/-- A file that includes itself is read over and over. -/
theorem includes_terminate_fails : ¬ ∀ (conf : List (Bytes × Bytes)) (mem : Bytes),
    SafelyRead (conf.lookup ·) mem := by
  intro hall
  obtain ⟨n, o, ho, -⟩ := hall [(selfName, selfInclude)] selfInclude
  have hpre :
      confPreparse (strAt selfInclude) = .text (includeName ++ [32] ++ selfName ++ [59]) := by
    decide +kernel
  have hitem :
      nextItem (includeName ++ [32] ++ selfName ++ [59]) = .data includeName selfName [] := by
    decide +kernel
  have hnone : ∀ n, confParse ([(selfName, selfInclude)].lookup ·) n
      (includeName ++ [32] ++ selfName ++ [59]) = none := by
    intro n
    induction n with
    | zero => rfl
    | succ n ih =>
      have hfile : [(selfName, selfInclude)].lookup selfName = some selfInclude := rfl
      simp only [confParse, hitem, hfile, Option.map_some, hpre, ih, if_true]
  rw [readConf, hpre] at ho
  cases (hnone n).symm.trans ho

end Ithildin
