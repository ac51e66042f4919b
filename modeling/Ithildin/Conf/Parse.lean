import Ithildin.Conf.Text

/-!
# Parsing a configuration file

`conf_parse` with what it includes: a text becomes a list of entries, of which a section has a list
of its own. A call is given a text and ends at its terminator, be it the end of the file or the
closing brace of a section.

* `nextItem`: the head of an entry, as far as its `;` or `{`;
* `scanSection`: the end of a section;
* `confParse`, `readConf`: `conf_parse` and `read_conf`;
* `Denotes`: the lists of entries that whole texts stand for;
* `Trips`: the texts in which the parser comes to a section that it does not survive;
* `safelyRead_iff`: the texts that are read to their end or rejected, and nothing worse.

The files are a parameter: `files` is `mmap_file`.
-/

namespace Ithildin

/-- `conf_entry_t`. -/
inductive ConfEntry
  | data (name string : Bytes)
  | list (name : Bytes) (string : Option Bytes) (entries : List ConfEntry)

/-- What the loop that is to skip quoted text leaves; nothing if it steps over the terminator. -/
def quoteLoop : Bytes → Option Bytes
  | [] => some []
  | [92] => none
  | 92 :: _ :: s => quoteLoop s
  | 34 :: s => some s
  | _ :: s => quoteLoop s

/-- The loop is entered at the opening quote, and ends with that. -/
theorem quoteLoop_quote (s : Bytes) : quoteLoop (34 :: s) = some s := rfl

/-- The text of a value, and the rest, from its `;` or `{` on. Quotes are passed over one by one
(`quoteLoop_quote`). -/
def scanValue : Bytes → Bytes × Bytes
  | [] => ([], [])
  | c :: s => if c = 59 ∨ c = 123 then ([], c :: s) else ((scanValue s).map (c :: ·) id)

/-- What the next entry of a text is: none, one that the text ends in, data, or a section, with
what follows the `;` or the `{`. -/
inductive Item
  | done
  | cut
  | data (name string rest : Bytes)
  | sect (name : Bytes) (string : Option Bytes) (rest : Bytes)
  deriving DecidableEq

/-- A character of a name. -/
def isNameChar (c : UInt8) : Bool := !isSpace c && c != 123 && c != 59

/-- The value of an entry; data without a value is its name, and has none. -/
def valueItem (name str : Bytes) : Item :=
  match scanValue (str.dropWhile isSpace) with
  | (value, 59 :: rest) =>
      let string := confExpandText value
      if string = [] then .data [] name rest else .data name string rest
  | (value, 123 :: rest) =>
      let string := confExpandText value
      .sect name (if string = [] then none else some string) rest
  | _ => .cut

/-- The next entry of a text. What has no quote or brace in front has a name, unless its `;` comes
next: then it is a value. -/
def nextItem (text : Bytes) : Item :=
  match text.dropWhile isSpace with
  | [] => .done
  | c :: s =>
      let str := c :: s
      if c ≠ 34 ∧ c ≠ 123 then
        let behind := str.dropWhile isNameChar
        if behind = [] then .cut
        else if (behind.dropWhile isSpace).head? = some 59 then valueItem [] str
        else valueItem (str.takeWhile isNameChar) behind
      else valueItem [] str

/-- What comes of looking for the end of a section: its text and what follows the brace, the end of
the text, or a step over that. -/
inductive SectionEnd
  | found (content rest : Bytes)
  | ended
  | outside
  deriving DecidableEq

/-- A character belongs to the section. -/
def SectionEnd.push (c : UInt8) : SectionEnd → SectionEnd
  | .found content rest => .found (c :: content) rest
  | r => r

/-- The end of a section, inside so many braces and in quoted text or not. Quoted text that does not
end is stepped out of behind the terminator. -/
def scanSection : Bool → ℕ → Bytes → SectionEnd
  | false, _, [] => .ended
  | true, _, [] => .outside
  | false, depth, c :: s =>
      if c = 34 then (scanSection true depth s).push c
      else if c = 123 then (scanSection false (depth + 1) s).push c
      else if c = 125 then
        if depth = 1 then .found [] s else (scanSection false (depth - 1) s).push c
      else (scanSection false depth s).push c
  | true, depth, c :: s =>
      if c = 92 then
        match s with
        | [] => .outside
        | d :: s' => ((scanSection true depth s').push d).push c
      else if c = 34 then (scanSection false depth s).push c
      else (scanSection true depth s).push c

section
variable {c : UInt8} (depth : ℕ) (s : Bytes)

theorem scanSection_plain (hquote : c ≠ 34) (hopen : c ≠ 123) (hclose : c ≠ 125) :
    scanSection false depth (c :: s) = (scanSection false depth s).push c :=
  (if_neg hquote).trans ((if_neg hopen).trans (if_neg hclose))

theorem scanSection_quote :
    scanSection false depth (34 :: s) = (scanSection true depth s).push 34 := if_pos rfl

theorem scanSection_open :
    scanSection false depth (123 :: s) = (scanSection false (depth + 1) s).push 123 :=
  (if_neg (by decide)).trans (if_pos rfl)

theorem scanSection_close :
    scanSection false depth (125 :: s) =
      if depth = 1 then .found [] s else (scanSection false (depth - 1) s).push 125 :=
  (if_neg (by decide)).trans ((if_neg (by decide)).trans (if_pos rfl))

theorem scanSection_string (hquote : c ≠ 34) (hback : c ≠ 92) :
    scanSection true depth (c :: s) = (scanSection true depth s).push c := by
  rw [scanSection.eq_def]
  dsimp only
  rw [if_neg hback, if_neg hquote]

theorem scanSection_string_quote :
    scanSection true depth (34 :: s) = (scanSection false depth s).push 34 := by
  rw [scanSection.eq_def]
  exact (if_neg (by decide)).trans (if_pos rfl)

theorem scanSection_string_escape (c : UInt8) :
    scanSection true depth (92 :: c :: s) = ((scanSection true depth s).push c).push 92 := by
  rw [scanSection.eq_def]
  exact if_pos rfl

end

/-- What comes of a parse: a list of entries; NULL, all entries of the list being freed once; an
access outside the text; or a freed entry in a list, where it is freed again or left. -/
inductive Outcome
  | tree (entries : List ConfEntry)
  | null
  | outside
  | freed

/-- Entries come before. -/
def Outcome.prepend (entries : List ConfEntry) : Outcome → Outcome
  | .tree entries' => .tree (entries ++ entries')
  | o => o

/-- `"$INCLUDE"`. -/
def includeName : Bytes := [36, 73, 78, 67, 76, 85, 68, 69]

/-- `conf_parse`, with so many steps; nothing if they are not enough. -/
def confParse (files : Bytes → Option Bytes) : ℕ → Bytes → Option Outcome
  | 0, _ => none
  | n + 1, text =>
      match nextItem text with
      | .done => some (.tree [])
      | .cut => some .null
      | .data name string rest =>
          if name = includeName then
            match (files string).map fun mem => confPreparse (strAt mem) with
            | none => some .null
            | some .failed => some .null
            | some .outside => some .outside
            | some (.text text') =>
                match confParse files n text' with
                | some (.tree entries) => (confParse files n rest).map (·.prepend entries)
                | o => o
          else (confParse files n rest).map (·.prepend [.data name string])
      | .sect name string rest =>
          match scanSection false 1 rest with
          | .ended => some .null
          | .outside => some .outside
          | .found content behind =>
              match confParse files n content with
              | some (.tree entries) =>
                  -- the entry is in the list already when it is freed for want of a semicolon
                  match behind.dropWhile isSpace with
                  | 59 :: rest' =>
                      (confParse files n rest').map (·.prepend [.list name string entries])
                  | _ => some .freed
              | o => o

/-- `read_conf`, of a file in memory. -/
def readConf (files : Bytes → Option Bytes) (n : ℕ) (mem : Bytes) : Option Outcome :=
  match confPreparse (strAt mem) with
  | .failed => some .null
  | .outside => some .outside
  | .text text => confParse files n text

/-! ### Whole texts -/

/-- The list of entries that a whole text stands for. -/
inductive Denotes (files : Bytes → Option Bytes) : Bytes → List ConfEntry → Prop
  | done {text : Bytes} : nextItem text = .done → Denotes files text []
  | data {text name string rest : Bytes} {entries : List ConfEntry} :
      nextItem text = .data name string rest → name ≠ includeName →
      Denotes files rest entries → Denotes files text (.data name string :: entries)
  | included {text string rest mem text' : Bytes} {entries entries' : List ConfEntry} :
      nextItem text = .data includeName string rest → files string = some mem →
      confPreparse (strAt mem) = .text text' → Denotes files text' entries' →
      Denotes files rest entries → Denotes files text (entries' ++ entries)
  | list {text name rest content behind rest' : Bytes} {string : Option Bytes}
      {entries entries' : List ConfEntry} :
      nextItem text = .sect name string rest → scanSection false 1 rest = .found content behind →
      Denotes files content entries' → behind.dropWhile isSpace = 59 :: rest' →
      Denotes files rest' entries → Denotes files text (.list name string entries' :: entries)

section
variable {files : Bytes → Option Bytes} {text name rest : Bytes} {entries : List ConfEntry}

theorem denotes_data_iff {string : Bytes} (hitem : nextItem text = .data name string rest)
    (hname : name ≠ includeName) : Denotes files text entries ↔
      ∃ behind, entries = .data name string :: behind ∧ Denotes files rest behind := by
  constructor
  · intro h
    cases h with
    | data hitem' _ hrest =>
      obtain ⟨rfl, rfl, rfl⟩ := Item.data.inj (hitem.symm.trans hitem')
      exact ⟨_, rfl, hrest⟩
    | included hitem' => exact absurd (Item.data.inj (hitem.symm.trans hitem')).1 hname
    | done hitem' | list hitem' => cases hitem.symm.trans hitem'
  · rintro ⟨behind, rfl, hrest⟩
    exact .data hitem hname hrest

theorem denotes_sect {string : Option Bytes} (hitem : nextItem text = .sect name string rest)
    (h : Denotes files text entries) : ∃ content rest' entries' behind,
      entries = .list name string entries' :: behind ∧ Denotes files content entries' ∧
      Denotes files rest' behind ∧
      ∃ mid, scanSection false 1 rest = .found content mid ∧
        mid.dropWhile isSpace = 59 :: rest' := by
  cases h with
  | list hitem' hscan hentries hsemi hrest =>
    obtain ⟨rfl, rfl, rfl⟩ := Item.sect.inj (hitem.symm.trans hitem')
    exact ⟨_, _, _, _, rfl, hentries, hrest, _, hscan, hsemi⟩
  | done hitem' | data hitem' | included hitem' => cases hitem.symm.trans hitem'

end

/-- A text comes next when another is parsed: the file that it includes, the text of its section,
or what follows. -/
inductive Next (files : Bytes → Option Bytes) : Bytes → Bytes → Prop
  | data {text name string rest : Bytes} :
      nextItem text = .data name string rest → name ≠ includeName → Next files rest text
  | file {text string rest mem text' : Bytes} :
      nextItem text = .data includeName string rest → files string = some mem →
      confPreparse (strAt mem) = .text text' → Next files text' text
  | included {text string rest mem text' : Bytes} {entries : List ConfEntry} :
      nextItem text = .data includeName string rest → files string = some mem →
      confPreparse (strAt mem) = .text text' → Denotes files text' entries → Next files rest text
  | content {text name rest content behind : Bytes} {string : Option Bytes} :
      nextItem text = .sect name string rest → scanSection false 1 rest = .found content behind →
      Next files content text
  | list {text name rest content behind rest' : Bytes} {string : Option Bytes}
      {entries : List ConfEntry} :
      nextItem text = .sect name string rest → scanSection false 1 rest = .found content behind →
      Denotes files content entries → behind.dropWhile isSpace = 59 :: rest' →
      Next files rest' text

/-- Parsing comes to a section whose quoted text does not end, to a section with all of its entries
and no semicolon after its brace, or to an included file that ends in the midst of an escape. -/
inductive Trips (files : Bytes → Option Bytes) : Bytes → Prop
  | quote {text name rest : Bytes} {string : Option Bytes} :
      nextItem text = .sect name string rest → scanSection false 1 rest = .outside →
      Trips files text
  | brace {text name rest content behind : Bytes} {string : Option Bytes}
      {entries : List ConfEntry} :
      nextItem text = .sect name string rest → scanSection false 1 rest = .found content behind →
      Denotes files content entries → (behind.dropWhile isSpace).head? ≠ some 59 →
      Trips files text
  | escape {text string rest mem : Bytes} :
      nextItem text = .data includeName string rest → files string = some mem →
      confPreparse (strAt mem) = .outside → Trips files text
  | next {text text' : Bytes} : Next files text' text → Trips files text' → Trips files text

/-- What comes of a parse is not an access outside the text or a freed entry in a list, and what is
returned is all of the text. -/
def Outcome.Sound (files : Bytes → Option Bytes) (text : Bytes) : Outcome → Prop
  | .tree entries => Denotes files text entries
  | .null => True
  | .outside => False
  | .freed => False

/-- It is one of the two. -/
def Outcome.Bad : Outcome → Prop
  | .tree _ => False
  | .null => False
  | .outside => True
  | .freed => True

/-- `read_conf` comes to an end, and to a complete tree or to NULL. -/
def SafelyRead (files : Bytes → Option Bytes) (mem : Bytes) : Prop :=
  ∃ n o, readConf files n mem = some o ∧
    match confPreparse (strAt mem) with
    | .text text => o.Sound files text
    | _ => o = .null

section
variable {files : Bytes → Option Bytes} {text : Bytes} {n m : ℕ} {o o' : Outcome}
  {entries entries' : List ConfEntry}

theorem Outcome.prepend_bad : (o.prepend entries).Bad ↔ o.Bad := by
  cases o <;> rfl

theorem Outcome.prepend_eq_tree : o.prepend entries = .tree entries' ↔
    ∃ rest, o = .tree rest ∧ entries' = entries ++ rest := by
  cases o with
  | tree rest =>
    constructor
    · intro h
      injection h with h
      exact ⟨rest, rfl, h.symm⟩
    · rintro ⟨rest', h, rfl⟩
      injection h with h
      rw [h, prepend]
  | null | outside | freed =>
    refine iff_of_false (fun h => ?_) ?_
    · cases h
    · rintro ⟨rest, h, -⟩
      cases h

/-- One call of the parser, with `R` for the calls that it makes. -/
inductive Unfolds (files : Bytes → Option Bytes) (R : Bytes → Outcome → Prop) :
    Bytes → Outcome → Prop
  | done {text : Bytes} : nextItem text = .done → Unfolds files R text (.tree [])
  | cut {text : Bytes} : nextItem text = .cut → Unfolds files R text .null
  | data {text name string rest : Bytes} {o : Outcome} : nextItem text = .data name string rest →
      name ≠ includeName → R rest o → Unfolds files R text (o.prepend [.data name string])
  | noFile {text string rest : Bytes} : nextItem text = .data includeName string rest →
      files string = none → Unfolds files R text .null
  | failed {text string rest mem : Bytes} : nextItem text = .data includeName string rest →
      files string = some mem → confPreparse (strAt mem) = .failed → Unfolds files R text .null
  | escape {text string rest mem : Bytes} : nextItem text = .data includeName string rest →
      files string = some mem → confPreparse (strAt mem) = .outside → Unfolds files R text .outside
  | included {text string rest mem text' : Bytes} {entries : List ConfEntry} {o : Outcome} :
      nextItem text = .data includeName string rest → files string = some mem →
      confPreparse (strAt mem) = .text text' → R text' (.tree entries) → R rest o →
      Unfolds files R text (o.prepend entries)
  | file {text string rest mem text' : Bytes} {o : Outcome} :
      nextItem text = .data includeName string rest → files string = some mem →
      confPreparse (strAt mem) = .text text' → R text' o → (∀ entries, o ≠ .tree entries) →
      Unfolds files R text o
  | ended {text name rest : Bytes} {string : Option Bytes} :
      nextItem text = .sect name string rest → scanSection false 1 rest = .ended →
      Unfolds files R text .null
  | quote {text name rest : Bytes} {string : Option Bytes} :
      nextItem text = .sect name string rest → scanSection false 1 rest = .outside →
      Unfolds files R text .outside
  | list {text name rest content behind rest' : Bytes} {string : Option Bytes}
      {entries : List ConfEntry} {o : Outcome} : nextItem text = .sect name string rest →
      scanSection false 1 rest = .found content behind → R content (.tree entries) →
      behind.dropWhile isSpace = 59 :: rest' → R rest' o →
      Unfolds files R text (o.prepend [.list name string entries])
  | brace {text name rest content behind : Bytes} {string : Option Bytes}
      {entries : List ConfEntry} : nextItem text = .sect name string rest →
      scanSection false 1 rest = .found content behind → R content (.tree entries) →
      (behind.dropWhile isSpace).head? ≠ some 59 → Unfolds files R text .freed
  | content {text name rest content behind : Bytes} {string : Option Bytes} {o : Outcome} :
      nextItem text = .sect name string rest → scanSection false 1 rest = .found content behind →
      R content o → (∀ entries, o ≠ .tree entries) → Unfolds files R text o

theorem Unfolds.mono {R R' : Bytes → Outcome → Prop} (hR : ∀ text o, R text o → R' text o)
    (h : Unfolds files R text o) : Unfolds files R' text o := by
  cases h with
  | done h => exact .done h
  | cut h => exact .cut h
  | data h hname hrest => exact .data h hname (hR _ _ hrest)
  | noFile h hfile => exact .noFile h hfile
  | failed h hfile hpre => exact .failed h hfile hpre
  | escape h hfile hpre => exact .escape h hfile hpre
  | included h hfile hpre hinc hrest => exact .included h hfile hpre (hR _ _ hinc) (hR _ _ hrest)
  | file h hfile hpre hinc hno => exact .file h hfile hpre (hR _ _ hinc) hno
  | ended h hscan => exact .ended h hscan
  | quote h hscan => exact .quote h hscan
  | list h hscan hcontent hsemi hrest => exact .list h hscan (hR _ _ hcontent) hsemi (hR _ _ hrest)
  | brace h hscan hcontent hsemi => exact .brace h hscan (hR _ _ hcontent) hsemi
  | content h hscan hcontent hno => exact .content h hscan (hR _ _ hcontent) hno

/-- One more step is one call. -/
theorem unfolds_of_confParse (h : confParse files (n + 1) text = some o) :
    Unfolds files (fun text o => confParse files n text = some o) text o := by
  rw [confParse] at h
  split at h
  · rename_i hitem
    obtain rfl := Option.some.inj h
    exact .done hitem
  · rename_i hitem
    obtain rfl := Option.some.inj h
    exact .cut hitem
  · rename_i name string rest hitem
    by_cases hname : name = includeName
    · rw [if_pos hname] at h
      subst hname
      cases hfile : files string with
      | none =>
        rw [hfile] at h
        obtain rfl := Option.some.inj h
        exact .noFile hitem hfile
      | some mem =>
        rw [hfile, Option.map_some] at h
        cases hpre : confPreparse (strAt mem) with
        | failed =>
          rw [hpre] at h
          obtain rfl := Option.some.inj h
          exact .failed hitem hfile hpre
        | outside =>
          rw [hpre] at h
          obtain rfl := Option.some.inj h
          exact .escape hitem hfile hpre
        | text text' =>
          rw [hpre] at h
          dsimp only at h
          split at h
          · rename_i entries hinc
            obtain ⟨o', hrest, rfl⟩ := Option.map_eq_some_iff.mp h
            exact .included hitem hfile hpre hinc hrest
          · rename_i hno
            exact .file hitem hfile hpre h fun entries heq => hno entries (heq ▸ h)
    · rw [if_neg hname] at h
      obtain ⟨o', hrest, rfl⟩ := Option.map_eq_some_iff.mp h
      exact .data hitem hname hrest
  · rename_i name string rest hitem
    split at h
    · rename_i hscan
      obtain rfl := Option.some.inj h
      exact .ended hitem hscan
    · rename_i hscan
      obtain rfl := Option.some.inj h
      exact .quote hitem hscan
    · rename_i content behind hscan
      split at h
      · rename_i entries hcontent
        split at h
        · rename_i rest' hsemi
          obtain ⟨o', hrest, rfl⟩ := Option.map_eq_some_iff.mp h
          exact .list hitem hscan hcontent hsemi hrest
        · rename_i hsemi
          obtain rfl := Option.some.inj h
          refine .brace hitem hscan hcontent fun hhead => ?_
          obtain ⟨rest', hrest'⟩ := List.head?_eq_some_iff.mp hhead
          exact hsemi rest' hrest'
      · rename_i hno
        exact .content hitem hscan h fun entries heq => hno entries (heq ▸ h)

/-- One call is one more step. -/
theorem confParse_of_unfolds
    (h : Unfolds files (fun text o => confParse files n text = some o) text o) :
    confParse files (n + 1) text = some o := by
  rw [confParse]
  cases h with
  | done h => rw [h]
  | cut h => rw [h]
  | data h hname hrest =>
    rw [h]
    dsimp only
    rw [if_neg hname, hrest, Option.map_some]
  | noFile h hfile =>
    rw [h]
    dsimp only
    rw [if_pos rfl, hfile, Option.map_none]
  | failed h hfile hpre | escape h hfile hpre =>
    rw [h]
    dsimp only
    rw [if_pos rfl, hfile, Option.map_some, hpre]
  | included h hfile hpre hinc hrest =>
    rw [h]
    dsimp only
    rw [if_pos rfl, hfile, Option.map_some, hpre]
    dsimp only
    rw [hinc]
    dsimp only
    rw [hrest, Option.map_some]
  | file h hfile hpre hinc hno =>
    rw [h]
    dsimp only
    rw [if_pos rfl, hfile, Option.map_some, hpre]
    dsimp only
    rw [hinc]
    cases o with
    | tree entries => exact absurd rfl (hno entries)
    | null | outside | freed => rfl
  | ended h hscan | quote h hscan =>
    rw [h]
    dsimp only
    rw [hscan]
  | list h hscan hcontent hsemi hrest =>
    rw [h]
    dsimp only
    rw [hscan]
    dsimp only
    rw [hcontent]
    dsimp only
    rw [hsemi]
    change Option.map _ (confParse files n _) = _
    rw [hrest, Option.map_some]
  | brace h hscan hcontent hsemi =>
    rw [h]
    dsimp only
    rw [hscan]
    dsimp only
    rw [hcontent]
    dsimp only
    split
    · rename_i rest' hrest'
      rw [hrest'] at hsemi
      exact absurd rfl hsemi
    · rfl
  | content h hscan hcontent hno =>
    rw [h]
    dsimp only
    rw [hscan]
    dsimp only
    rw [hcontent]
    cases o with
    | tree entries => exact absurd rfl (hno entries)
    | null | outside | freed => rfl

/-- Steps that are not needed make no difference. -/
theorem confParse_le (h : confParse files n text = some o) (hle : n ≤ m) :
    confParse files m text = some o := by
  induction n generalizing text o m with
  | zero => cases h
  | succ n ih =>
    obtain ⟨m, rfl⟩ := Nat.exists_eq_add_of_le' (Nat.lt_of_lt_of_le (Nat.succ_pos n) hle)
    refine confParse_of_unfolds ((unfolds_of_confParse h).mono fun text o hsub => ?_)
    exact ih hsub (Nat.le_of_succ_le_succ hle)

variable (files) in
/-- What comes of a text, in any number of steps. -/
def Parses (text : Bytes) (o : Outcome) : Prop := ∃ n, confParse files n text = some o

theorem Parses.unfolds (h : Parses files text o) : Unfolds files (Parses files) text o := by
  obtain ⟨n, hn⟩ := h
  cases n with
  | zero => cases hn
  | succ n => exact (unfolds_of_confParse hn).mono fun _ _ hsub => ⟨n, hsub⟩

theorem Parses.unique (h : Parses files text o) (h' : Parses files text o') : o = o' := by
  obtain ⟨n, hn⟩ := h
  obtain ⟨n', hn'⟩ := h'
  have hmax := confParse_le hn (Nat.le_max_left n n')
  rw [confParse_le hn' (Nat.le_max_right n n')] at hmax
  exact (Option.some.inj hmax).symm

/-- The calls that one call makes need some number of steps together. -/
theorem parses_of_unfolds (h : Unfolds files (Parses files) text o) : Parses files text o := by
  have hone : ∀ {text o}, Parses files text o → ∃ n, ∀ m, n ≤ m →
      confParse files m text = some o := by
    rintro text o ⟨n, hn⟩
    exact ⟨n, fun m => confParse_le hn⟩
  suffices h' : ∃ n, Unfolds files (fun text o => confParse files n text = some o) text o by
    obtain ⟨n, hn⟩ := h'
    exact ⟨n + 1, confParse_of_unfolds hn⟩
  cases h with
  | done h => exact ⟨0, .done h⟩
  | cut h => exact ⟨0, .cut h⟩
  | data h hname hrest =>
    obtain ⟨n, hn⟩ := hrest
    exact ⟨n, .data h hname hn⟩
  | noFile h hfile => exact ⟨0, .noFile h hfile⟩
  | failed h hfile hpre => exact ⟨0, .failed h hfile hpre⟩
  | escape h hfile hpre => exact ⟨0, .escape h hfile hpre⟩
  | included h hfile hpre hinc hrest =>
    obtain ⟨n, hn⟩ := hone hinc
    obtain ⟨n', hn'⟩ := hone hrest
    exact ⟨max n n', .included h hfile hpre (hn _ (Nat.le_max_left n n'))
      (hn' _ (Nat.le_max_right n n'))⟩
  | file h hfile hpre hinc hno =>
    obtain ⟨n, hn⟩ := hinc
    exact ⟨n, .file h hfile hpre hn hno⟩
  | ended h hscan => exact ⟨0, .ended h hscan⟩
  | quote h hscan => exact ⟨0, .quote h hscan⟩
  | list h hscan hcontent hsemi hrest =>
    obtain ⟨n, hn⟩ := hone hcontent
    obtain ⟨n', hn'⟩ := hone hrest
    exact ⟨max n n', .list h hscan (hn _ (Nat.le_max_left n n')) hsemi
      (hn' _ (Nat.le_max_right n n'))⟩
  | brace h hscan hcontent hsemi =>
    obtain ⟨n, hn⟩ := hcontent
    exact ⟨n, .brace h hscan hn hsemi⟩
  | content h hscan hcontent hno =>
    obtain ⟨n, hn⟩ := hcontent
    exact ⟨n, .content h hscan hn hno⟩

/-! ### What a call does with the entry it comes to -/

theorem Unfolds.of_data {R : Bytes → Outcome → Prop} {name string rest : Bytes}
    (h : Unfolds files R text o) (hitem : nextItem text = .data name string rest)
    (hname : name ≠ includeName) : ∃ o', R rest o' ∧ o = o'.prepend [.data name string] := by
  cases h with
  | data hitem' _ hrest =>
    obtain ⟨rfl, rfl, rfl⟩ := Item.data.inj (hitem.symm.trans hitem')
    exact ⟨_, hrest, rfl⟩
  | noFile hitem' | failed hitem' | escape hitem' | included hitem' | file hitem' =>
    exact absurd (Item.data.inj (hitem.symm.trans hitem')).1 hname
  | done hitem' | cut hitem' | ended hitem' | quote hitem' | list hitem' | brace hitem'
  | content hitem' => cases hitem.symm.trans hitem'

theorem Unfolds.of_file {R : Bytes → Outcome → Prop} {string rest mem text' : Bytes}
    (h : Unfolds files R text o) (hitem : nextItem text = .data includeName string rest)
    (hfile : files string = some mem) (hpre : confPreparse (strAt mem) = .text text') :
    (∃ entries o', R text' (.tree entries) ∧ R rest o' ∧ o = o'.prepend entries) ∨
      R text' o ∧ ∀ entries, o ≠ .tree entries := by
  cases h with
  | included hitem' hfile' hpre' hinc hrest =>
    obtain ⟨-, rfl, rfl⟩ := Item.data.inj (hitem.symm.trans hitem')
    obtain rfl := Option.some.inj (hfile.symm.trans hfile')
    obtain rfl := Preparsed.text.inj (hpre.symm.trans hpre')
    exact .inl ⟨_, _, hinc, hrest, rfl⟩
  | file hitem' hfile' hpre' hinc hno =>
    obtain ⟨-, rfl, rfl⟩ := Item.data.inj (hitem.symm.trans hitem')
    obtain rfl := Option.some.inj (hfile.symm.trans hfile')
    obtain rfl := Preparsed.text.inj (hpre.symm.trans hpre')
    exact .inr ⟨hinc, hno⟩
  | noFile hitem' hfile' =>
    obtain ⟨-, rfl, rfl⟩ := Item.data.inj (hitem.symm.trans hitem')
    cases hfile.symm.trans hfile'
  | failed hitem' hfile' hpre' | escape hitem' hfile' hpre' =>
    obtain ⟨-, rfl, rfl⟩ := Item.data.inj (hitem.symm.trans hitem')
    obtain rfl := Option.some.inj (hfile.symm.trans hfile')
    cases hpre.symm.trans hpre'
  | data hitem' hname =>
    exact absurd (Item.data.inj (hitem.symm.trans hitem')).1.symm hname
  | done hitem' | cut hitem' | ended hitem' | quote hitem' | list hitem' | brace hitem'
  | content hitem' => cases hitem.symm.trans hitem'

theorem Unfolds.of_sect {R : Bytes → Outcome → Prop} {name rest content behind : Bytes}
    {string : Option Bytes} (h : Unfolds files R text o)
    (hitem : nextItem text = .sect name string rest)
    (hscan : scanSection false 1 rest = .found content behind) :
    (∃ entries, R content (.tree entries) ∧
        ∀ rest', behind.dropWhile isSpace = 59 :: rest' →
          ∃ o', R rest' o' ∧ o = o'.prepend [.list name string entries]) ∨
      R content o ∧ ∀ entries, o ≠ .tree entries := by
  cases h with
  | list hitem' hscan' hcontent hsemi hrest =>
    obtain ⟨rfl, rfl, rfl⟩ := Item.sect.inj (hitem.symm.trans hitem')
    obtain ⟨rfl, rfl⟩ := SectionEnd.found.inj (hscan.symm.trans hscan')
    refine .inl ⟨_, hcontent, fun rest' hsemi' => ?_⟩
    obtain ⟨-, rfl⟩ := List.cons.inj (hsemi.symm.trans hsemi')
    exact ⟨_, hrest, rfl⟩
  | brace hitem' hscan' hcontent hsemi =>
    obtain ⟨rfl, rfl, rfl⟩ := Item.sect.inj (hitem.symm.trans hitem')
    obtain ⟨rfl, rfl⟩ := SectionEnd.found.inj (hscan.symm.trans hscan')
    refine .inl ⟨_, hcontent, fun rest' hsemi' => ?_⟩
    rw [hsemi'] at hsemi
    exact absurd rfl hsemi
  | content hitem' hscan' hcontent hno =>
    obtain ⟨rfl, rfl, rfl⟩ := Item.sect.inj (hitem.symm.trans hitem')
    obtain ⟨rfl, rfl⟩ := SectionEnd.found.inj (hscan.symm.trans hscan')
    exact .inr ⟨hcontent, hno⟩
  | ended hitem' hscan' | quote hitem' hscan' =>
    obtain ⟨rfl, rfl, rfl⟩ := Item.sect.inj (hitem.symm.trans hitem')
    cases hscan.symm.trans hscan'
  | done hitem' | cut hitem' | data hitem' | noFile hitem' | failed hitem' | escape hitem'
  | included hitem' | file hitem' => cases hitem.symm.trans hitem'

/-! ### Trees, errors and ends -/

theorem parses_of_denotes (h : Denotes files text entries) : Parses files text (.tree entries) := by
  induction h with
  | done hitem => exact parses_of_unfolds (.done hitem)
  | data hitem hname _ ih => exact parses_of_unfolds (.data hitem hname ih)
  | included hitem hfile hpre _ _ ihinc ih =>
    exact parses_of_unfolds (.included hitem hfile hpre ihinc ih)
  | list hitem hscan _ hsemi _ ihcontent ih =>
    exact parses_of_unfolds (.list hitem hscan ihcontent hsemi ih)

/-- What is returned is all of the text, and an error that is not one shows in the text. -/
theorem Parses.sound (h : Parses files text o) :
    (∀ entries, o = .tree entries → Denotes files text entries) ∧ (o.Bad → Trips files text) := by
  obtain ⟨n, hn⟩ := h
  induction n generalizing text o with
  | zero => cases hn
  | succ n ih =>
    have hnext : ∀ {text' o'}, Next files text' text → confParse files n text' = some o' →
        o'.Bad → Trips files text := fun hnext hsub hbad => .next hnext ((ih hsub).2 hbad)
    cases unfolds_of_confParse hn with
    | done hitem =>
      refine ⟨fun entries heq => ?_, fun hbad => hbad.elim⟩
      obtain rfl := Outcome.tree.inj heq
      exact .done hitem
    | cut hitem | noFile hitem | failed hitem | ended hitem =>
      refine ⟨fun entries heq => ?_, fun hbad => hbad.elim⟩
      cases heq
    | data hitem hname hrest =>
      refine ⟨fun entries heq => ?_, fun hbad => ?_⟩
      · obtain ⟨rest, rfl, rfl⟩ := Outcome.prepend_eq_tree.mp heq
        exact .data hitem hname ((ih hrest).1 rest rfl)
      · exact hnext (.data hitem hname) hrest (Outcome.prepend_bad.mp hbad)
    | escape hitem hfile hpre =>
      refine ⟨fun entries heq => ?_, fun _ => .escape hitem hfile hpre⟩
      cases heq
    | included hitem hfile hpre hinc hrest =>
      have hinc' := (ih hinc).1 _ rfl
      refine ⟨fun entries heq => ?_, fun hbad => ?_⟩
      · obtain ⟨rest, rfl, rfl⟩ := Outcome.prepend_eq_tree.mp heq
        exact .included hitem hfile hpre hinc' ((ih hrest).1 rest rfl)
      · exact hnext (.included hitem hfile hpre hinc') hrest (Outcome.prepend_bad.mp hbad)
    | file hitem hfile hpre hinc hno =>
      exact ⟨fun entries heq => absurd heq (hno entries), hnext (.file hitem hfile hpre) hinc⟩
    | quote hitem hscan =>
      refine ⟨fun entries heq => ?_, fun _ => .quote hitem hscan⟩
      cases heq
    | list hitem hscan hcontent hsemi hrest =>
      have hcontent' := (ih hcontent).1 _ rfl
      refine ⟨fun entries heq => ?_, fun hbad => ?_⟩
      · obtain ⟨rest, rfl, rfl⟩ := Outcome.prepend_eq_tree.mp heq
        exact .list hitem hscan hcontent' hsemi ((ih hrest).1 rest rfl)
      · exact hnext (.list hitem hscan hcontent' hsemi) hrest (Outcome.prepend_bad.mp hbad)
    | brace hitem hscan hcontent hsemi =>
      refine ⟨fun entries heq => ?_, fun _ => .brace hitem hscan ((ih hcontent).1 _ rfl) hsemi⟩
      cases heq
    | content hitem hscan hcontent hno =>
      exact ⟨fun entries heq => absurd heq (hno entries), hnext (.content hitem hscan) hcontent⟩

/-- A text that comes next is parsed too, and its errors are errors. -/
theorem Unfolds.next {R : Bytes → Outcome → Prop} {text' : Bytes}
    (hR : ∀ {text o}, R text o → Parses files text o) (h : Unfolds files R text o)
    (hnext : Next files text' text) : ∃ o', R text' o' ∧ (o'.Bad → o.Bad) := by
  cases hnext with
  | data hitem hname =>
    obtain ⟨o', hrest, rfl⟩ := h.of_data hitem hname
    exact ⟨o', hrest, Outcome.prepend_bad.mpr⟩
  | file hitem hfile hpre =>
    rcases h.of_file hitem hfile hpre with ⟨entries, o', hinc, -, -⟩ | ⟨hinc, -⟩
    · exact ⟨_, hinc, False.elim⟩
    · exact ⟨o, hinc, id⟩
  | included hitem hfile hpre hentries =>
    rcases h.of_file hitem hfile hpre with ⟨entries, o', -, hrest, rfl⟩ | ⟨hinc, hno⟩
    · exact ⟨o', hrest, Outcome.prepend_bad.mpr⟩
    · exact absurd ((hR hinc).unique (parses_of_denotes hentries)) (hno _)
  | content hitem hscan =>
    rcases h.of_sect hitem hscan with ⟨entries, hcontent, -⟩ | ⟨hcontent, -⟩
    · exact ⟨_, hcontent, False.elim⟩
    · exact ⟨o, hcontent, id⟩
  | list hitem hscan hentries hsemi =>
    rcases h.of_sect hitem hscan with ⟨entries, -, hrest⟩ | ⟨hcontent, hno⟩
    · obtain ⟨o', hrest', rfl⟩ := hrest _ hsemi
      exact ⟨o', hrest', Outcome.prepend_bad.mpr⟩
    · exact absurd ((hR hcontent).unique (parses_of_denotes hentries)) (hno _)

theorem Trips.bad (h : Trips files text) (ho : Parses files text o) : o.Bad := by
  induction h generalizing o with
  | quote hitem hscan =>
    obtain rfl := ho.unique (parses_of_unfolds (.quote hitem hscan))
    trivial
  | brace hitem hscan hentries hsemi =>
    obtain rfl :=
      ho.unique (parses_of_unfolds (.brace hitem hscan (parses_of_denotes hentries) hsemi))
    trivial
  | escape hitem hfile hpre =>
    obtain rfl := ho.unique (parses_of_unfolds (.escape hitem hfile hpre))
    trivial
  | next hnext _ ih =>
    obtain ⟨o', ho', hbad⟩ := ho.unfolds.next id hnext
    exact hbad (ih ho')

/-- A parse ends if what comes next in it does not go on for ever. -/
theorem exists_parses (h : Acc (Next files) text) : ∃ o, Parses files text o := by
  induction h with
  | intro text _ ih =>
    suffices h' : ∃ o, Unfolds files (Parses files) text o by
      obtain ⟨o, ho⟩ := h'
      exact ⟨o, parses_of_unfolds ho⟩
    cases hitem : nextItem text with
    | done => exact ⟨_, .done hitem⟩
    | cut => exact ⟨_, .cut hitem⟩
    | data name string rest =>
      by_cases hname : name = includeName
      · subst hname
        cases hfile : files string with
        | none => exact ⟨_, .noFile hitem hfile⟩
        | some mem =>
          cases hpre : confPreparse (strAt mem) with
          | failed => exact ⟨_, .failed hitem hfile hpre⟩
          | outside => exact ⟨_, .escape hitem hfile hpre⟩
          | text text' =>
            obtain ⟨o, ho⟩ := ih text' (.file hitem hfile hpre)
            by_cases htree : ∃ entries, o = .tree entries
            · obtain ⟨entries, rfl⟩ := htree
              obtain ⟨o', ho'⟩ := ih rest (.included hitem hfile hpre (ho.sound.1 entries rfl))
              exact ⟨_, .included hitem hfile hpre ho ho'⟩
            · exact ⟨_, .file hitem hfile hpre ho (not_exists.mp htree)⟩
      · obtain ⟨o, ho⟩ := ih rest (.data hitem hname)
        exact ⟨_, .data hitem hname ho⟩
    | sect name string rest =>
      cases hscan : scanSection false 1 rest with
      | ended => exact ⟨_, .ended hitem hscan⟩
      | outside => exact ⟨_, .quote hitem hscan⟩
      | found content behind =>
        obtain ⟨o, ho⟩ := ih content (.content hitem hscan)
        by_cases htree : ∃ entries, o = .tree entries
        · obtain ⟨entries, rfl⟩ := htree
          by_cases hsemi : (behind.dropWhile isSpace).head? = some 59
          · obtain ⟨rest', hrest'⟩ := List.head?_eq_some_iff.mp hsemi
            obtain ⟨o', ho'⟩ := ih rest' (.list hitem hscan (ho.sound.1 entries rfl) hrest')
            exact ⟨_, .list hitem hscan ho hrest' ho'⟩
          · exact ⟨_, .brace hitem hscan ho hsemi⟩
        · exact ⟨_, .content hitem hscan ho (not_exists.mp htree)⟩

theorem Parses.acc (h : Parses files text o) : Acc (Next files) text := by
  obtain ⟨n, hn⟩ := h
  induction n generalizing text o with
  | zero => cases hn
  | succ n ih =>
    refine .intro text fun text' hnext => ?_
    obtain ⟨o', ho', -⟩ := (unfolds_of_confParse hn).next (fun hsub => ⟨n, hsub⟩) hnext
    exact ih ho'

/-- A text is parsed to a complete tree or rejected exactly if what comes next in it does not go on
for ever and it does not trip. -/
theorem exists_sound_iff : (∃ o, Parses files text o ∧ o.Sound files text) ↔
    Acc (Next files) text ∧ ¬ Trips files text := by
  constructor
  · rintro ⟨o, ho, hsound⟩
    refine ⟨ho.acc, fun htrips => ?_⟩
    have hbad := htrips.bad ho
    cases o with
    | tree entries => exact hbad
    | null => exact hbad
    | outside => exact hsound
    | freed => exact hsound
  · rintro ⟨hacc, htrips⟩
    obtain ⟨o, ho⟩ := exists_parses hacc
    refine ⟨o, ho, ?_⟩
    cases o with
    | tree entries => exact ho.sound.1 entries rfl
    | null => trivial
    | outside => exact htrips (ho.sound.2 trivial)
    | freed => exact htrips (ho.sound.2 trivial)

/-- A file is read to its end or rejected, and nothing worse, exactly if it does not end in the
midst of an escape, and its text is parsed to a complete tree or rejected. -/
theorem safelyRead_iff_sound (files : Bytes → Option Bytes) (mem : Bytes) :
    SafelyRead files mem ↔ (∀ inString, lexState (strAt mem) ≠ .escape inString) ∧
      ∀ text, confPreparse (strAt mem) = .text text →
        ∃ o, Parses files text o ∧ o.Sound files text := by
  rw [SafelyRead]
  cases hpre : confPreparse (strAt mem) with
  | outside =>
    obtain ⟨inString, hlex⟩ := confPreparse_eq_outside.mp hpre
    refine iff_of_false ?_ fun h => h.1 inString hlex
    rintro ⟨n, o, ho, rfl⟩
    rw [readConf, hpre] at ho
    cases ho
  | failed =>
    refine iff_of_true ⟨0, .null, by rw [readConf, hpre], rfl⟩ ⟨fun inString hlex => ?_, ?_⟩
    · cases hpre.symm.trans (confPreparse_eq_outside.mpr ⟨inString, hlex⟩)
    · intro text htext
      cases htext
  | text text =>
    have hlex : ∀ inString, lexState (strAt mem) ≠ .escape inString := by
      intro inString hlex
      cases hpre.symm.trans (confPreparse_eq_outside.mpr ⟨inString, hlex⟩)
    have hread : ∀ n, readConf files n mem = confParse files n text := by
      intro n
      rw [readConf, hpre]
    rw [and_iff_right hlex]
    dsimp only
    constructor
    · rintro ⟨n, o, ho, hsound⟩ text' heq
      obtain rfl := Preparsed.text.inj heq
      exact ⟨o, ⟨n, (hread n).symm.trans ho⟩, hsound⟩
    · intro h
      obtain ⟨o, ⟨n, ho⟩, hsound⟩ := h text rfl
      exact ⟨n, o, (hread n).trans ho, hsound⟩

/-- A file is read to its end or rejected, and nothing worse, exactly if it does not end in the
midst of an escape, its includes do not go on for ever, and it does not trip. -/
theorem safelyRead_iff (files : Bytes → Option Bytes) (mem : Bytes) :
    SafelyRead files mem ↔ (∀ inString, lexState (strAt mem) ≠ .escape inString) ∧
      ∀ text, confPreparse (strAt mem) = .text text →
        Acc (Next files) text ∧ ¬ Trips files text := by
  refine (safelyRead_iff_sound files mem).trans (and_congr_right fun _ => ?_)
  exact forall₂_congr fun text _ => exists_sound_iff

end

/-- A section, and the end of the file: `a {}`. -/
def bareSection : Bytes := [97, 32, 123, 125, 0]

/-- The section is freed for want of a semicolon while it is in the list. -/
theorem safelyRead_fails : ¬ ∀ (files : Bytes → Option Bytes) (mem : Bytes),
    SafelyRead files mem := by
  intro hall
  obtain ⟨n, o, ho, hsound⟩ := hall (fun _ => none) bareSection
  have hpre : confPreparse (strAt bareSection) = .text [97, 32, 123, 125] := by decide +kernel
  have hfreed : Parses (fun _ => none) [97, 32, 123, 125] .freed := ⟨2, rfl⟩
  rw [readConf, hpre] at ho
  rw [hpre] at hsound
  obtain rfl := hfreed.unique ⟨n, ho⟩
  exact hsound

end Ithildin
