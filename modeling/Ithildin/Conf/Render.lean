import Ithildin.Conf.Parse

/-!
# Rendering a configuration

A tree of entries is written out, one entry to a line, every value in quotes and with its quotes and
backslashes escaped, and the text is read again.

* `ConfTree`: the trees whose names are plain words and whose values are printable;
* `ConfTree.render`: the text of a tree;
* `denotes_renderAll_iff`: that text stands for the tree just if no value has a `;` or a `{`;
* `readConf_render_iff`: and just then it is read as the tree.
-/

namespace Ithildin

/-- A byte that a plain word may have: no delimiter, and nothing that quotes or comments out. -/
def isWordByte (c : UInt8) : Bool :=
  decide (33 ≤ c ∧ c ≤ 126) && !([34, 35, 47, 59, 92, 123, 125] : Bytes).contains c

/-- A name that is a plain word. -/
structure PlainWord (name : Bytes) : Prop where
  ne_nil : name ≠ []
  ne_include : name ≠ includeName
  bytes : ∀ c ∈ name, isWordByte c = true

/-- A value: printable characters, blanks too. -/
structure Printable (v : Bytes) : Prop where
  ne_nil : v ≠ []
  bytes : ∀ c ∈ v, 32 ≤ c ∧ c ≤ 126

/-- Lists of entries with such names and values. -/
inductive WellFormed : List ConfEntry → Prop
  | nil : WellFormed []
  | data {name v : Bytes} {rest : List ConfEntry} : PlainWord name → Printable v →
      WellFormed rest → WellFormed (.data name v :: rest)
  | list {name : Bytes} {string : Option Bytes} {entries rest : List ConfEntry} : PlainWord name →
      (∀ v ∈ string, Printable v) → WellFormed entries → WellFormed rest →
      WellFormed (.list name string entries :: rest)

/-- A tree with such names and values. -/
structure ConfTree where
  entries : List ConfEntry
  wellFormed : WellFormed entries

/-- A value without its quotes; those inside are escaped. -/
def escaped (v : Bytes) : Bytes := v.flatMap fun c => if c = 34 ∨ c = 92 then [92, c] else [c]

/-- A value. -/
def quoted (v : Bytes) : Bytes := 34 :: escaped v ++ [34]

mutual

/-- The text of an entry. -/
def ConfEntry.render : ConfEntry → Bytes
  | .data name v => 10 :: (name ++ 32 :: (quoted v ++ [59]))
  | .list name none entries => 10 :: (name ++ 32 :: 123 :: (renderAll entries ++ [125, 59]))
  | .list name (some v) entries =>
      10 :: (name ++ 32 :: (quoted v ++ 32 :: 123 :: (renderAll entries ++ [125, 59])))

/-- The text of a list of entries. -/
def renderAll : List ConfEntry → Bytes
  | [] => []
  | e :: es => e.render ++ renderAll es

end

mutual

/-- The values of an entry. -/
def ConfEntry.values : ConfEntry → List Bytes
  | .data _ v => [v]
  | .list _ string entries => string.toList ++ valuesAll entries

/-- The values of a list of entries. -/
def valuesAll : List ConfEntry → List Bytes
  | [] => []
  | e :: es => e.values ++ valuesAll es

end

/-- The text of a tree. -/
def ConfTree.render (t : ConfTree) : Bytes := renderAll t.entries

/-- The values of a tree. -/
def ConfTree.values (t : ConfTree) : List Bytes := valuesAll t.entries

/-- A value that has no delimiter. -/
def Undivided (v : Bytes) : Prop := 59 ∉ v ∧ 123 ∉ v

/-! ### The text as `conf_preparse` copies it -/

/-- Several characters are copied. -/
def Preparsed.prepend (a : Bytes) : Preparsed → Preparsed
  | .text s => .text (a ++ s)
  | p => p

/-- A text that is copied as it is. -/
def Copied (a : Bytes) : Prop :=
  ∀ rest, preparseLoop .plain (a ++ rest) = (preparseLoop .plain rest).prepend a

section
variable {a b s v name : Bytes} {c : UInt8} {files : Bytes → Option Bytes}

theorem Preparsed.prepend_prepend (p : Preparsed) :
    (p.prepend b).prepend a = p.prepend (a ++ b) := by
  cases p with
  | text s => exact congrArg Preparsed.text (List.append_assoc a b s).symm
  | failed | outside => rfl

theorem Preparsed.push_eq_prepend (p : Preparsed) : p.push c = p.prepend [c] := by
  cases p <;> rfl

theorem Copied.nil : Copied [] := by
  intro rest
  rw [List.nil_append]
  cases preparseLoop .plain rest <;> rfl

theorem Copied.append (ha : Copied a) (hb : Copied b) : Copied (a ++ b) := by
  intro rest
  rw [List.append_assoc, ha, hb, Preparsed.prepend_prepend]

theorem Copied.singleton (hquote : c ≠ 34) (hback : c ≠ 92) (hhash : c ≠ 35) (hslash : c ≠ 47) :
    Copied [c] := by
  intro rest
  rw [List.singleton_append, preparseLoop_plain rest hquote hback hhash hslash,
    Preparsed.push_eq_prepend]

theorem Copied.cons (hquote : c ≠ 34) (hback : c ≠ 92) (hhash : c ≠ 35) (hslash : c ≠ 47)
    (ha : Copied a) : Copied (c :: a) :=
  (singleton hquote hback hhash hslash).append ha

/-- A word has none of the delimiters. -/
theorem isWordByte_spec (h : isWordByte c = true) :
    isSpace c = false ∧ c ≠ 0 ∧ c ≠ 34 ∧ c ≠ 35 ∧ c ≠ 47 ∧ c ≠ 59 ∧ c ≠ 92 ∧ c ≠ 123 ∧ c ≠ 125 := by
  have hall : ∀ c : UInt8, isWordByte c = true → isSpace c = false ∧ c ≠ 0 ∧ c ≠ 34 ∧ c ≠ 35 ∧
      c ≠ 47 ∧ c ≠ 59 ∧ c ≠ 92 ∧ c ≠ 123 ∧ c ≠ 125 := forall_byte (by decide +kernel)
  exact hall c h

theorem Copied.word (h : ∀ c ∈ name, isWordByte c = true) : Copied name := by
  induction name with
  | nil => exact .nil
  | cons c name ih =>
    obtain ⟨-, -, hquote, hhash, hslash, -, hback, -, -⟩ :=
      isWordByte_spec (h c List.mem_cons_self)
    exact .cons hquote hback hhash hslash (ih fun d hd => h d (List.mem_cons_of_mem c hd))

theorem escaped_cons : escaped (c :: v) = (if c = 34 ∨ c = 92 then [92, c] else [c]) ++ escaped v :=
  List.flatMap_cons

theorem escaped_append {v' : Bytes} : escaped (v ++ v') = escaped v ++ escaped v' :=
  List.flatMap_append

/-- Inside quotes a value is copied. -/
theorem preparseLoop_escaped (v s : Bytes) :
    preparseLoop .string (escaped v ++ s) = (preparseLoop .string s).prepend (escaped v) := by
  induction v with
  | nil =>
    rw [escaped, List.flatMap_nil, List.nil_append]
    cases preparseLoop .string s <;> rfl
  | cons c v ih =>
    rw [escaped_cons]
    by_cases hc : c = 34 ∨ c = 92
    · rw [if_pos hc, List.append_assoc, List.cons_append, List.singleton_append,
        preparseLoop_string_escape, ih, Preparsed.push_eq_prepend, Preparsed.push_eq_prepend,
        Preparsed.prepend_prepend, Preparsed.prepend_prepend]
      rfl
    · obtain ⟨hquote, hback⟩ := not_or.mp hc
      rw [if_neg hc, List.append_assoc, List.singleton_append, preparseLoop_string _ hquote hback,
        ih, Preparsed.push_eq_prepend, Preparsed.prepend_prepend]

theorem Copied.quoted (v : Bytes) : Copied (quoted v) := by
  intro rest
  rw [Ithildin.quoted, List.append_assoc, List.cons_append, preparseLoop_plain_quote,
    preparseLoop_escaped, List.singleton_append, preparseLoop_string_quote,
    Preparsed.push_eq_prepend, Preparsed.push_eq_prepend, Preparsed.prepend_prepend,
    Preparsed.prepend_prepend]
  rfl

theorem Copied.renderAll {entries : List ConfEntry} (h : WellFormed entries) :
    Copied (renderAll entries) := by
  have hnewline : Copied [10] := .singleton (by decide) (by decide) (by decide) (by decide)
  have hblank : Copied [32] := .singleton (by decide) (by decide) (by decide) (by decide)
  have hopen : Copied [123] := .singleton (by decide) (by decide) (by decide) (by decide)
  have hclose : Copied [125] := .singleton (by decide) (by decide) (by decide) (by decide)
  have hsemi : Copied [59] := .singleton (by decide) (by decide) (by decide) (by decide)
  induction h with
  | nil => exact .nil
  | @data name v rest hname _ _ ih =>
    rw [Ithildin.renderAll, ConfEntry.render]
    exact (hnewline.append ((Copied.word hname.bytes).append
      (hblank.append ((Copied.quoted v).append hsemi)))).append ih
  | @list name string entries rest hname _ _ _ ihentries ih =>
    rw [Ithildin.renderAll]
    have hbody := ihentries.append (hclose.append hsemi)
    cases string with
    | none =>
      rw [ConfEntry.render]
      exact (hnewline.append ((Copied.word hname.bytes).append
        (hblank.append (hopen.append hbody)))).append ih
    | some v =>
      rw [ConfEntry.render]
      exact (hnewline.append ((Copied.word hname.bytes).append (hblank.append
        ((Copied.quoted v).append (hblank.append (hopen.append hbody)))))).append ih

/-- The text of a tree goes through `conf_preparse` as it is. -/
theorem confPreparse_renderAll {entries : List ConfEntry} (h : WellFormed entries) :
    confPreparse (renderAll entries) = .text (renderAll entries) := by
  have hcopied := Copied.renderAll h []
  rw [List.append_nil] at hcopied
  rw [confPreparse, hcopied, preparseLoop, Preparsed.prepend, List.append_nil]
  exact if_pos (Nat.le_refl _)

/-! ### The text as a section of another -/

/-- Several characters belong to a section. -/
def SectionEnd.prepend (a : Bytes) : SectionEnd → SectionEnd
  | .found content rest => .found (a ++ content) rest
  | r => r

theorem SectionEnd.prepend_prepend (r : SectionEnd) :
    (r.prepend b).prepend a = r.prepend (a ++ b) := by
  cases r with
  | found content rest =>
    exact congrArg (SectionEnd.found · rest) (List.append_assoc a b content).symm
  | ended | outside => rfl

theorem SectionEnd.push_eq_prepend (r : SectionEnd) : r.push c = r.prepend [c] := by
  cases r <;> rfl

/-- A text in which no section ends that was begun before. -/
def Enclosed (a : Bytes) : Prop :=
  ∀ depth rest, 0 < depth →
    scanSection false depth (a ++ rest) = (scanSection false depth rest).prepend a

theorem Enclosed.nil : Enclosed [] := by
  intro depth rest _
  rw [List.nil_append]
  cases scanSection false depth rest <;> rfl

theorem Enclosed.append (ha : Enclosed a) (hb : Enclosed b) : Enclosed (a ++ b) := by
  intro depth rest hdepth
  rw [List.append_assoc, ha depth _ hdepth, hb depth _ hdepth, SectionEnd.prepend_prepend]

theorem Enclosed.singleton (hquote : c ≠ 34) (hopen : c ≠ 123) (hclose : c ≠ 125) :
    Enclosed [c] := by
  intro depth rest _
  rw [List.singleton_append, scanSection_plain depth rest hquote hopen hclose,
    SectionEnd.push_eq_prepend]

theorem Enclosed.word (h : ∀ c ∈ name, isWordByte c = true) : Enclosed name := by
  induction name with
  | nil => exact .nil
  | cons c name ih =>
    obtain ⟨-, -, hquote, -, -, -, -, hopen, hclose⟩ := isWordByte_spec (h c List.mem_cons_self)
    have hrest := ih fun d hd => h d (List.mem_cons_of_mem c hd)
    exact (singleton hquote hopen hclose).append hrest

/-- Inside quotes no section begins or ends. -/
theorem scanSection_escaped (depth : ℕ) (v s : Bytes) :
    scanSection true depth (escaped v ++ s) = (scanSection true depth s).prepend (escaped v) := by
  induction v with
  | nil =>
    rw [escaped, List.flatMap_nil, List.nil_append]
    cases scanSection true depth s <;> rfl
  | cons c v ih =>
    rw [escaped_cons]
    by_cases hc : c = 34 ∨ c = 92
    · rw [if_pos hc, List.append_assoc, List.cons_append, List.singleton_append,
        scanSection_string_escape, ih, SectionEnd.push_eq_prepend, SectionEnd.push_eq_prepend,
        SectionEnd.prepend_prepend, SectionEnd.prepend_prepend]
      rfl
    · obtain ⟨hquote, hback⟩ := not_or.mp hc
      rw [if_neg hc, List.append_assoc, List.singleton_append,
        scanSection_string _ _ hquote hback, ih, SectionEnd.push_eq_prepend,
        SectionEnd.prepend_prepend]

theorem Enclosed.quoted (v : Bytes) : Enclosed (quoted v) := by
  intro depth rest _
  rw [Ithildin.quoted, List.append_assoc, List.cons_append, scanSection_quote,
    scanSection_escaped, List.singleton_append, scanSection_string_quote,
    SectionEnd.push_eq_prepend,
    SectionEnd.push_eq_prepend, SectionEnd.prepend_prepend, SectionEnd.prepend_prepend]
  rfl

/-- A section inside another begins and ends there. -/
theorem Enclosed.braces (ha : Enclosed a) : Enclosed (123 :: (a ++ [125])) := by
  intro depth rest hdepth
  rw [List.cons_append, scanSection_open, List.append_assoc, ha _ _ (Nat.succ_pos depth),
    List.singleton_append, scanSection_close, if_neg (by omega), Nat.succ_sub_one,
    SectionEnd.push_eq_prepend, SectionEnd.push_eq_prepend, SectionEnd.prepend_prepend,
    SectionEnd.prepend_prepend]
  rfl

theorem Enclosed.renderAll {entries : List ConfEntry} (h : WellFormed entries) :
    Enclosed (renderAll entries) := by
  have hnewline : Enclosed [10] := .singleton (by decide) (by decide) (by decide)
  have hblank : Enclosed [32] := .singleton (by decide) (by decide) (by decide)
  have hsemi : Enclosed [59] := .singleton (by decide) (by decide) (by decide)
  induction h with
  | nil => exact .nil
  | @data name v rest hname _ _ ih =>
    rw [Ithildin.renderAll, ConfEntry.render]
    exact (hnewline.append ((Enclosed.word hname.bytes).append
      (hblank.append ((Enclosed.quoted v).append hsemi)))).append ih
  | @list name string entries rest hname _ _ _ ihentries ih =>
    have hbody := ihentries.braces.append hsemi
    rw [List.cons_append, List.append_assoc, List.singleton_append] at hbody
    rw [Ithildin.renderAll]
    cases string with
    | none =>
      rw [ConfEntry.render]
      exact (hnewline.append ((Enclosed.word hname.bytes).append
        (hblank.append hbody))).append ih
    | some v =>
      rw [ConfEntry.render]
      exact (hnewline.append ((Enclosed.word hname.bytes).append (hblank.append
        ((Enclosed.quoted v).append (hblank.append hbody))))).append ih

/-- The text of a list in braces is found. -/
theorem scanSection_renderAll {entries : List ConfEntry} (h : WellFormed entries) (rest : Bytes) :
    scanSection false 1 (renderAll entries ++ 125 :: rest) = .found (renderAll entries) rest := by
  rw [Enclosed.renderAll h 1 _ Nat.one_pos, scanSection_close, if_pos rfl, SectionEnd.prepend,
    List.append_nil]

/-! ### Values -/

theorem expandLoop_escaped (v s : Bytes) :
    expandLoop true (escaped v ++ s) = v ++ expandLoop true s := by
  induction v with
  | nil => rw [escaped, List.flatMap_nil, List.nil_append, List.nil_append]
  | cons c v ih =>
    rw [escaped_cons, List.cons_append, ← ih]
    by_cases hc : c = 34 ∨ c = 92
    · rw [if_pos hc]
      rcases hc with rfl | rfl
      · rfl
      · rfl
    · obtain ⟨hquote, hback⟩ := not_or.mp hc
      rw [if_neg hc, List.append_assoc, List.singleton_append, expandLoop.eq_def]
      dsimp only
      rw [if_neg hback, if_neg hquote]

theorem confExpandText_quoted (v : Bytes) : confExpandText (quoted v) = v := by
  rw [confExpandText, quoted, List.cons_append, expandLoop.eq_def]
  exact (if_pos rfl).trans ((expandLoop_escaped v [34]).trans (List.append_nil v))

theorem confExpandText_quoted_blank (v : Bytes) : confExpandText (quoted v ++ [32]) = v := by
  rw [confExpandText, quoted, List.append_assoc, List.cons_append, expandLoop.eq_def]
  exact (if_pos rfl).trans ((expandLoop_escaped v [34, 32]).trans (List.append_nil v))

/-- Quoted text that is cut off counts as far as it goes. -/
theorem confExpandText_open (v : Bytes) : confExpandText (34 :: escaped v) = v := by
  have h := expandLoop_escaped v []
  rw [List.append_nil, expandLoop, List.append_nil] at h
  rw [confExpandText, expandLoop.eq_def]
  exact (if_pos rfl).trans h

/-- What a value is scanned to. -/
theorem scanValue_append (ha : Undivided a) (hc : c = 59 ∨ c = 123) (s : Bytes) :
    scanValue (a ++ c :: s) = (a, c :: s) := by
  induction a with
  | nil => rw [List.nil_append, scanValue, if_pos hc]
  | cons d a ih =>
    obtain ⟨h59, h123⟩ := ha
    rw [List.mem_cons, not_or] at h59 h123
    rw [List.cons_append, scanValue, if_neg (not_or.mpr ⟨Ne.symm h59.1, Ne.symm h123.1⟩),
      ih ⟨h59.2, h123.2⟩]
    rfl

theorem mem_escaped (hquote : c ≠ 34) (hback : c ≠ 92) : c ∈ escaped v ↔ c ∈ v := by
  rw [escaped, List.mem_flatMap]
  constructor
  · rintro ⟨d, hd, hmem⟩
    split at hmem
    · rcases List.mem_cons.mp hmem with rfl | hmem
      · exact absurd rfl hback
      · rwa [List.mem_singleton.mp hmem]
    · rwa [List.mem_singleton.mp hmem]
  · intro hc
    refine ⟨c, hc, ?_⟩
    rw [if_neg (not_or.mpr ⟨hquote, hback⟩)]
    exact List.mem_singleton_self c

theorem undivided_escaped : Undivided (escaped v) ↔ Undivided v := by
  rw [Undivided, Undivided, mem_escaped (by decide) (by decide),
    mem_escaped (by decide) (by decide)]

theorem undivided_append : Undivided (a ++ b) ↔ Undivided a ∧ Undivided b := by
  simp only [Undivided, List.mem_append, not_or]
  tauto

/-- A value that is divided is so first at some place. -/
theorem exists_split (h : ¬ Undivided v) :
    ∃ a c b, v = a ++ c :: b ∧ Undivided a ∧ (c = 59 ∨ c = 123) := by
  induction v with
  | nil => exact absurd ⟨List.not_mem_nil, List.not_mem_nil⟩ h
  | cons d v ih =>
    by_cases hd : d = 59 ∨ d = 123
    · exact ⟨[], d, v, rfl, ⟨List.not_mem_nil, List.not_mem_nil⟩, hd⟩
    · have hd' : Undivided [d] := by
        simpa only [Undivided, List.mem_singleton, eq_comm (b := d), not_or] using hd
      have hv : ¬ Undivided v := fun hv => h (undivided_append.mpr ⟨hd', hv⟩)
      obtain ⟨a, c, b, rfl, ha, hc⟩ := ih hv
      exact ⟨d :: a, c, b, rfl, undivided_append.mpr ⟨hd', ha⟩, hc⟩

/-! ### Entries -/

theorem isNameChar_word (h : isWordByte c = true) : isNameChar c = true := by
  obtain ⟨hspace, -, -, -, -, hsemi, -, hopen, -⟩ := isWordByte_spec h
  rw [isNameChar, hspace, bne_iff_ne.mpr hopen, bne_iff_ne.mpr hsemi]
  rfl

/-- A word before a blank is the name of an entry. -/
theorem nextItem_word (hname : PlainWord name) (hspace : isSpace c = false) (hc : c ≠ 59) :
    nextItem (10 :: (name ++ 32 :: c :: s)) = valueItem name (32 :: c :: s) := by
  have hchars : ∀ d ∈ name, isNameChar d = true := fun d hd => isNameChar_word (hname.bytes d hd)
  have htake : (name ++ 32 :: c :: s).takeWhile isNameChar = name := by
    rw [List.takeWhile_append_of_pos hchars, List.takeWhile_cons_of_neg (by decide),
      List.append_nil]
  have hdrop : (name ++ 32 :: c :: s).dropWhile isNameChar = 32 :: c :: s := by
    rw [List.dropWhile_append_of_pos hchars, List.dropWhile_cons_of_neg (by decide)]
  have hblank : (32 :: c :: s).dropWhile isSpace = c :: s := by
    rw [List.dropWhile_cons_of_pos (by decide), List.dropWhile_cons_of_neg (by simp [hspace])]
  obtain ⟨d, name', rfl⟩ := List.exists_cons_of_ne_nil hname.ne_nil
  obtain ⟨hdspace, -, hquote, -, -, -, -, hopen, -⟩ :=
    isWordByte_spec (hname.bytes d List.mem_cons_self)
  have hlead : (10 :: (d :: name' ++ 32 :: c :: s)).dropWhile isSpace =
      d :: (name' ++ 32 :: c :: s) := by
    rw [List.dropWhile_cons_of_pos (by decide), List.cons_append,
      List.dropWhile_cons_of_neg (by simp [hdspace])]
  rw [List.cons_append] at htake hdrop
  rw [nextItem, hlead]
  dsimp only
  rw [if_pos ⟨hquote, hopen⟩, htake, hdrop, if_neg (List.cons_ne_nil _ _), hblank, List.head?_cons,
    if_neg fun heq => hc (Option.some.inj heq)]

theorem valueItem_data {str value rest : Bytes}
    (h : scanValue (str.dropWhile isSpace) = (value, 59 :: rest)) :
    valueItem name str = if confExpandText value = [] then .data [] name rest
      else .data name (confExpandText value) rest := by
  rw [valueItem, h]
  rfl

theorem valueItem_sect {str value rest : Bytes}
    (h : scanValue (str.dropWhile isSpace) = (value, 123 :: rest)) :
    valueItem name str =
      .sect name (if confExpandText value = [] then none else some (confExpandText value))
        rest := by
  rw [valueItem, h]
  rfl

theorem undivided_quoted (hv : Undivided v) : Undivided (quoted v) := by
  have hquote : Undivided [34] := by
    constructor
    · decide
    · decide
  exact undivided_append.mpr
    ⟨undivided_append.mpr ⟨hquote, undivided_escaped.mpr hv⟩, hquote⟩

/-- Behind a blank the scan begins at the quote. -/
theorem dropWhile_quoted (v s : Bytes) :
    (32 :: (quoted v ++ s)).dropWhile isSpace = quoted v ++ s := by
  rw [List.dropWhile_cons_of_pos (by decide), quoted, List.append_assoc, List.cons_append,
    List.dropWhile_cons_of_neg (by decide)]

theorem nextItem_data (hname : PlainWord name) (hv : Printable v) (hdiv : Undivided v) (s : Bytes) :
    nextItem (10 :: (name ++ 32 :: (quoted v ++ 59 :: s))) = .data name v s := by
  have hword := nextItem_word (s := escaped v ++ [34] ++ 59 :: s) hname
    (show isSpace 34 = false from rfl) (by decide)
  have hscan := scanValue_append (undivided_quoted hdiv) (.inl rfl) s
  rw [← dropWhile_quoted] at hscan
  refine hword.trans ((valueItem_data hscan).trans ?_)
  rw [confExpandText_quoted, if_neg hv.ne_nil]

theorem nextItem_list (hname : PlainWord name) (s : Bytes) :
    nextItem (10 :: (name ++ 32 :: 123 :: s)) = .sect name none s := by
  have hscan : scanValue ((32 :: 123 :: s).dropWhile isSpace) = ([], 123 :: s) := rfl
  exact (nextItem_word hname rfl (by decide)).trans (valueItem_sect hscan)

theorem nextItem_list_value (hname : PlainWord name) (hv : Printable v) (hdiv : Undivided v)
    (s : Bytes) :
    nextItem (10 :: (name ++ 32 :: (quoted v ++ 32 :: 123 :: s))) = .sect name (some v) s := by
  have hword := nextItem_word (s := escaped v ++ [34] ++ 32 :: 123 :: s) hname
    (show isSpace 34 = false from rfl) (by decide)
  have hblank : Undivided (quoted v ++ [32]) := by
    refine undivided_append.mpr ⟨undivided_quoted hdiv, ?_⟩
    constructor
    · decide
    · decide
  have hscan := scanValue_append hblank (.inr rfl) s
  rw [List.append_assoc, List.singleton_append, ← dropWhile_quoted] at hscan
  refine hword.trans ((valueItem_sect hscan).trans ?_)
  rw [confExpandText_quoted_blank, if_neg hv.ne_nil]

/-- Of a divided value only a part is read. -/
theorem nextItem_divided (hname : PlainWord name) (hdiv : ¬ Undivided v) (s : Bytes) :
    (∃ v' rest, nextItem (10 :: (name ++ 32 :: (quoted v ++ s))) = .data name v' rest ∧ v' ≠ v) ∨
    (∃ rest, nextItem (10 :: (name ++ 32 :: (quoted v ++ s))) = .data [] name rest) ∨
    ∃ string rest, nextItem (10 :: (name ++ 32 :: (quoted v ++ s))) = .sect name string rest ∧
      string ≠ some v := by
  have hword := nextItem_word (s := escaped v ++ [34] ++ s) hname
    (show isSpace 34 = false from rfl) (by decide)
  obtain ⟨a, c, b, rfl, ha, hc⟩ := exists_split hdiv
  have hne : a ≠ a ++ c :: b := fun h => by
    have hlength := congrArg List.length h
    rw [List.length_append, List.length_cons] at hlength
    omega
  have hopen : Undivided (34 :: escaped a) := by
    rw [← List.singleton_append]
    refine undivided_append.mpr ⟨?_, undivided_escaped.mpr ha⟩
    constructor
    · decide
    · decide
  have hplain : escaped (c :: b) = c :: escaped b := by
    rw [escaped_cons, if_neg (by rcases hc with rfl | rfl <;> decide), List.singleton_append]
  have hscan := scanValue_append hopen hc (escaped b ++ [34] ++ s)
  have htext : 34 :: escaped a ++ c :: (escaped b ++ [34] ++ s) = quoted (a ++ c :: b) ++ s := by
    rw [quoted, escaped_append, hplain]
    simp only [List.cons_append, List.append_assoc]
  rw [htext, ← dropWhile_quoted] at hscan
  rcases hc with rfl | rfl
  · have hitem := hword.trans (valueItem_data hscan)
    rw [confExpandText_open] at hitem
    by_cases hnil : a = []
    · rw [if_pos hnil] at hitem
      exact .inr (.inl ⟨_, hitem⟩)
    · rw [if_neg hnil] at hitem
      exact .inl ⟨a, _, hitem, hne⟩
  · have hitem := hword.trans (valueItem_sect hscan)
    rw [confExpandText_open] at hitem
    refine .inr (.inr ⟨_, _, hitem, ?_⟩)
    split
    · intro h
      cases h
    · exact fun h => hne (Option.some.inj h)

/-! ### Trees -/

/-- An entry with a divided value is read as another. -/
theorem not_denotes_divided {e : ConfEntry} {entries : List ConfEntry} (hname : PlainWord name)
    (hdiv : ¬ Undivided v) (hdata : ∀ name' v', e = .data name' v' → name' = name ∧ v' = v)
    (hlist : ∀ name' string es, e = .list name' string es → string = some v) (s : Bytes) :
    ¬ Denotes files (10 :: (name ++ 32 :: (quoted v ++ s))) (e :: entries) := by
  intro h
  rcases nextItem_divided hname hdiv s with ⟨v', rest, hitem, hne⟩ | ⟨rest, hitem⟩ |
    ⟨string, rest, hitem, hne⟩
  · obtain ⟨behind, heq, -⟩ := (denotes_data_iff hitem hname.ne_include).mp h
    exact hne (hdata _ _ (List.cons.inj heq).1).2
  · obtain ⟨behind, heq, -⟩ := (denotes_data_iff hitem (by decide)).mp h
    exact hname.ne_nil (hdata _ _ (List.cons.inj heq).1).1.symm
  · obtain ⟨_, _, _, _, heq, -⟩ := denotes_sect hitem h
    exact hne (hlist _ _ _ (List.cons.inj heq).1)

/-- The text of a list in braces, between others, stands for the entry with that list. -/
theorem denotes_list_iff {string : Option Bytes} {text s : Bytes} {entries rest : List ConfEntry}
    (hentries : WellFormed entries)
    (hitem : nextItem text = .sect name string (renderAll entries ++ 125 :: 59 :: s)) :
    Denotes files text (.list name string entries :: rest) ↔
      Denotes files (renderAll entries) entries ∧ Denotes files s rest := by
  have hscan := scanSection_renderAll hentries (59 :: s)
  constructor
  · intro h
    obtain ⟨content, rest', entries', behind, heq, hcontent, hrest, mid, hscan', hsemi⟩ :=
      denotes_sect hitem h
    obtain ⟨hhead, rfl⟩ := List.cons.inj heq
    obtain ⟨-, -, rfl⟩ := ConfEntry.list.inj hhead
    obtain ⟨rfl, rfl⟩ := SectionEnd.found.inj (hscan.symm.trans hscan')
    rw [List.dropWhile_cons_of_neg (by decide)] at hsemi
    obtain ⟨-, rfl⟩ := List.cons.inj hsemi
    exact ⟨hcontent, hrest⟩
  · rintro ⟨hcontent, hrest⟩
    exact .list hitem hscan hcontent (List.dropWhile_cons_of_neg (by decide)) hrest

/-- The text of a tree stands for the tree just if no value is divided. -/
theorem denotes_renderAll_iff {entries : List ConfEntry} (h : WellFormed entries) :
    Denotes files (renderAll entries) entries ↔ ∀ v ∈ valuesAll entries, Undivided v := by
  induction h with
  | nil => exact iff_of_true (.done rfl) fun v hv => absurd hv List.not_mem_nil
  | @data name v rest hname hv _ ih =>
    rw [renderAll, ConfEntry.render, valuesAll, ConfEntry.values, List.singleton_append,
      List.forall_mem_cons, ← ih]
    simp only [List.cons_append, List.append_assoc, List.nil_append]
    by_cases hdiv : Undivided v
    · rw [and_iff_right hdiv,
        denotes_data_iff (nextItem_data hname hv hdiv (renderAll rest)) hname.ne_include]
      constructor
      · rintro ⟨behind, heq, hrest⟩
        obtain ⟨-, rfl⟩ := List.cons.inj heq
        exact hrest
      · exact fun hrest => ⟨rest, rfl, hrest⟩
    · refine iff_of_false (not_denotes_divided hname hdiv ?_ ?_ _) fun hall => hdiv hall.1
      · rintro name' v' heq
        obtain ⟨rfl, rfl⟩ := ConfEntry.data.inj heq
        exact ⟨rfl, rfl⟩
      · rintro name' string es heq
        cases heq
  | @list name string entries rest hname hstring hentries _ ihentries ih =>
    rw [renderAll, valuesAll, ConfEntry.values]
    cases string with
    | none =>
      rw [ConfEntry.render, Option.toList_none, List.nil_append, List.forall_mem_append,
        ← ihentries, ← ih]
      simp only [List.cons_append, List.append_assoc, List.nil_append]
      exact denotes_list_iff hentries (nextItem_list hname _)
    | some v =>
      have hv := hstring v rfl
      rw [ConfEntry.render, Option.toList_some, List.append_assoc, List.singleton_append,
        List.forall_mem_cons, List.forall_mem_append, ← ihentries, ← ih]
      simp only [List.cons_append, List.append_assoc, List.nil_append]
      by_cases hdiv : Undivided v
      · rw [and_iff_right hdiv]
        exact denotes_list_iff hentries (nextItem_list_value hname hv hdiv _)
      · refine iff_of_false (not_denotes_divided hname hdiv ?_ ?_ _) fun hall => hdiv hall.1
        · rintro name' v' heq
          cases heq
        · rintro name' string es heq
          obtain ⟨-, rfl, -⟩ := ConfEntry.list.inj heq
          rfl

/-! ### Files -/

theorem isText_escaped (hv : Printable v) : IsText (escaped v) := by
  rw [IsText, mem_escaped (by decide) (by decide)]
  exact fun h => absurd (hv.bytes 0 h).1 (by decide)

theorem isText_quoted (hv : Printable v) : IsText (quoted v) :=
  isText_append.mpr ⟨isText_cons.mpr ⟨by decide, isText_escaped hv⟩, by decide⟩

theorem isText_word (hname : PlainWord name) : IsText name := by
  intro h
  exact (isWordByte_spec (hname.bytes 0 h)).2.1 rfl

theorem isText_renderAll {entries : List ConfEntry} (h : WellFormed entries) :
    IsText (renderAll entries) := by
  induction h with
  | nil => exact List.not_mem_nil
  | @data name v rest hname hv _ ih =>
    rw [renderAll, ConfEntry.render]
    simp only [List.cons_append, List.append_assoc, List.nil_append, isText_append, isText_cons]
    exact ⟨by decide, isText_word hname, by decide, isText_quoted hv, by decide, ih⟩
  | @list name string entries rest hname hstring _ _ ihentries ih =>
    rw [renderAll]
    cases string with
    | none =>
      rw [ConfEntry.render]
      simp only [List.cons_append, List.append_assoc, List.nil_append, isText_append, isText_cons]
      exact ⟨by decide, isText_word hname, by decide, by decide, ihentries, by decide, by decide,
        ih⟩
    | some v =>
      rw [ConfEntry.render]
      simp only [List.cons_append, List.append_assoc, List.nil_append, isText_append, isText_cons]
      exact ⟨by decide, isText_word hname, by decide, isText_quoted (hstring v rfl), by decide,
        by decide, ihentries, by decide, by decide, ih⟩

theorem readConf_render (files : Bytes → Option Bytes) (t : ConfTree) (n : ℕ) :
    readConf files n (t.render ++ [0]) = confParse files n t.render := by
  rw [readConf, ConfTree.render, strAt_append (isText_renderAll t.wellFormed) [],
    confPreparse_renderAll t.wellFormed]

/-- The rendering of a tree is read as the tree just if no value has a `;` or a `{`. -/
theorem readConf_render_iff (files : Bytes → Option Bytes) (t : ConfTree) :
    (∃ n, readConf files n (t.render ++ [0]) = some (.tree t.entries)) ↔
      ∀ v ∈ t.values, 59 ∉ v ∧ 123 ∉ v := by
  have hiff : Denotes files (renderAll t.entries) t.entries ↔
      ∀ v ∈ valuesAll t.entries, Undivided v := denotes_renderAll_iff t.wellFormed
  refine Iff.trans ?_ hiff
  constructor
  · rintro ⟨n, hn⟩
    rw [readConf_render] at hn
    have hparses : Parses files t.render (.tree t.entries) := ⟨n, hn⟩
    exact hparses.sound.1 t.entries rfl
  · intro h
    obtain ⟨n, hn⟩ := parses_of_denotes h
    exact ⟨n, (readConf_render files t n).trans hn⟩

end

/-- One entry, `motd`, with a semicolon in its value. -/
def semicolonTree : ConfTree where
  entries := [.data [109, 111, 116, 100] [97, 59, 98]]
  wellFormed := .data ⟨by decide, by decide, by decide +kernel⟩
    ⟨by decide +kernel, by decide +kernel⟩ .nil

/-- It is read as two entries. -/
theorem readConf_render_fails : ¬ ∀ (files : Bytes → Option Bytes) (t : ConfTree),
    ∃ n, readConf files n (t.render ++ [0]) = some (.tree t.entries) := by
  intro hall
  obtain ⟨n, hn⟩ := hall (fun _ => none) semicolonTree
  rw [readConf_render] at hn
  have htwo : Parses (fun _ => none) semicolonTree.render
      (.tree [.data [109, 111, 116, 100] [97], .data [] [98]]) := ⟨3, rfl⟩
  have heq := Outcome.tree.inj (htwo.unique ⟨n, hn⟩)
  cases (ConfEntry.data.inj (List.cons.inj heq).1).2

end Ithildin
