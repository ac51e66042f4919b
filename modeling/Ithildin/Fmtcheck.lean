import Ithildin.Hostmatch
import Ithildin.Numbers
import Ithildin.Printf
import Ithildin.Send.Messages

/-!
# Formats from the configuration

`fmtcheck` of `contrib/fmtcheck.c`, which is to tell whether a format may be used in place of
another one, and what `ith_vsnprintf` does with the formats that it accepts.

* `getNextFormat`, `accepts`: the functions;
* `formats`: the types of the arguments that a format takes;
* `accepts_iff`: a format is accepted exactly if its types are the first ones of the other's;
* `messageText_safe_iff`: with any format that a message has from the configuration `ith_vsnprintf`
  finds the arguments that it takes itself; but when it leaves a conversion to the library, it
  passes the whole format and the arguments that are left, which is right exactly if these are of
  the right kinds again.
-/

namespace Ithildin

namespace Fmtcheck

/-- `EFT`. -/
inductive Eft
  | start
  | int
  | long
  | quad
  | shortPointer
  | intPointer
  | longPointer
  | quadPointer
  | double
  | longDouble
  | string
  | width
  | precision
  | done
  | unknown
  deriving DecidableEq

/-! ### The functions -/

/-- The type of a conversion with the prefixes `h`, `l`, `q` (or `ll`) and `L`. -/
def conversion (sh lg quad longdouble : Bool) (c : UInt8) : Eft :=
  if c ∈ bytes "diouxX" then
    if longdouble then .unknown else if lg then .long else if quad then .quad else .int
  else if c = 110 then
    if longdouble then .unknown
    else if sh then .shortPointer
    else if lg then .longPointer
    else if quad then .quadPointer
    else .intPointer
  else if c ∈ bytes "DOU" then
    if sh || lg || quad || longdouble then .unknown else .long
  else if c ∈ bytes "eEfg" then
    if longdouble then .longDouble else if sh || lg || quad then .unknown else .double
  else if c = 99 then
    if sh || lg || quad || longdouble then .unknown else .int
  else if c = 115 then
    if sh || lg || quad || longdouble then .unknown else .string
  else if c = 112 then
    if sh || lg || quad || longdouble then .unknown else .long
  else .unknown

/-- The end of `get_next_format_from_precision`, behind the prefixes. -/
def atConversion (sh lg quad longdouble : Bool) : Bytes → Eft × Bytes
  | [] => (.unknown, [])
  | c :: f => (conversion sh lg quad longdouble c, c :: f)

/-- `get_next_format_from_precision`. -/
def getNextFormatFromPrecision : Bytes → Eft × Bytes
  | [] => (.unknown, [])
  | c :: f =>
      if c = 104 then atConversion true false false false f
      else if c = 108 then
        if f.head? = some 108 then atConversion false false true false f.tail
        else atConversion false true false false f
      else if c = 113 then atConversion false false true false f
      else if c = 76 then atConversion false false false true f
      else atConversion false false false false (c :: f)

/-- `get_next_format_from_width`. -/
def getNextFormatFromWidth (f : Bytes) : Eft × Bytes :=
  if f.head? = some 46 then
    if f.tail.head? = some 42 then (.precision, f.tail)
    else
      let f := f.tail.dropWhile isDigit
      if f = [] then (.unknown, []) else getNextFormatFromPrecision f
  else getNextFormatFromPrecision f

/-- Behind a `'%'` that is not one of two: flags and width. -/
def getNextFormatFromFlags (f : Bytes) : Eft × Bytes :=
  let f := f.dropWhile (· ∈ bytes "#0- +")
  if f.head? = some 42 then (.width, f)
  else
    let f := f.dropWhile isDigit
    if f = [] then (.unknown, []) else getNextFormatFromWidth f

/-- The loop that looks for the next conversion. -/
def seekFormat : Bytes → Eft × Bytes
  | [] => (.done, [])
  | [c] => if c = percentSign then (.unknown, []) else (.done, [])
  | c :: k :: f =>
      if c ≠ percentSign then seekFormat (k :: f)
      else if k ≠ percentSign then getNextFormatFromFlags (k :: f)
      else seekFormat f

/-- `get_next_format`. -/
def getNextFormat (f : Bytes) (eft : Eft) : Eft × Bytes :=
  if eft = .width then getNextFormatFromWidth f.tail
  else if eft = .precision then getNextFormatFromPrecision f.tail
  else seekFormat f

/-- The loop of `fmtcheck`. -/
def acceptsFrom : ℕ → Bytes → Eft → Bytes → Eft → Bool
  | 0, _, _, _, _ => false
  | n + 1, f1p, f1t, f2p, f2t =>
      let (f1t, f1p) := getNextFormat f1p f1t
      if f1t = .done then true
      else if f1t = .unknown then false
      else
        let (f2t, f2p) := getNextFormat f2p f2t
        if f1t ≠ f2t then false else acceptsFrom n f1p f1t f2p f2t

/-- `fmtcheck` returns its first argument. -/
def accepts (f1 f2 : Bytes) : Bool := acceptsFrom (f1.length + 1) f1 .start f2 .start

/-! ### The types of a format -/

/-- The types of the conversions, up to one that is unknown. -/
def formatsFrom : ℕ → Bytes → Eft → List Eft
  | 0, _, _ => []
  | n + 1, f, eft =>
      let (eft, f) := getNextFormat f eft
      if eft = .done then [] else if eft = .unknown then [eft] else eft :: formatsFrom n f eft

/-- The types of the arguments that a format takes. -/
def formats (f : Bytes) : List Eft := formatsFrom (f.length + 1) f .start

/-! ### The loop of `fmtcheck` -/

theorem length_atConversion (sh lg quad longdouble : Bool) (f : Bytes) :
    (atConversion sh lg quad longdouble f).2.length ≤ f.length := by
  cases f <;> exact Nat.le_refl _

theorem length_fromPrecision (f : Bytes) :
    (getNextFormatFromPrecision f).2.length ≤ f.length := by
  cases f with
  | nil => exact Nat.le_refl _
  | cons c f =>
    rw [getNextFormatFromPrecision]
    split_ifs
    · exact (length_atConversion ..).trans (Nat.le_succ _)
    · exact (length_atConversion ..).trans ((List.tail_sublist f).length_le.trans
        (Nat.le_succ _))
    · exact (length_atConversion ..).trans (Nat.le_succ _)
    · exact (length_atConversion ..).trans (Nat.le_succ _)
    · exact (length_atConversion ..).trans (Nat.le_succ _)
    · exact length_atConversion ..

theorem length_fromWidth (f : Bytes) : (getNextFormatFromWidth f).2.length ≤ f.length := by
  rw [getNextFormatFromWidth]
  dsimp only
  split_ifs
  · exact (List.tail_sublist f).length_le
  · exact Nat.zero_le _
  · have hdigits := List.length_dropWhile_le isDigit f.tail
    exact (length_fromPrecision _).trans (hdigits.trans (List.tail_sublist f).length_le)
  · exact length_fromPrecision f

theorem length_fromFlags (f : Bytes) : (getNextFormatFromFlags f).2.length ≤ f.length := by
  have hflags := List.length_dropWhile_le (fun c => decide (c ∈ bytes "#0- +")) f
  rw [getNextFormatFromFlags]
  dsimp only
  split_ifs
  · exact hflags
  · exact Nat.zero_le _
  · have hdigits := List.length_dropWhile_le isDigit
      (f.dropWhile fun c => decide (c ∈ bytes "#0- +"))
    exact (length_fromWidth _).trans (hdigits.trans hflags)

theorem length_seekFormat (f : Bytes) (h : (seekFormat f).1 ≠ .done)
    (hknown : (seekFormat f).1 ≠ .unknown) : (seekFormat f).2.length < f.length := by
  induction f using seekFormat.induct with
  | case1 => exact absurd rfl h
  | case2 => exact absurd rfl hknown
  | case3 c hc =>
    rw [seekFormat, if_neg hc] at h
    exact absurd rfl h
  | case4 c k f hc ih =>
    rw [seekFormat, if_pos hc] at h hknown ⊢
    exact (ih h hknown).trans (Nat.lt_succ_self _)
  | case5 c k f hc hk =>
    rw [seekFormat, if_neg hc, if_pos hk]
    exact Nat.lt_succ_of_le (length_fromFlags _)
  | case6 c k f hc hk ih =>
    rw [seekFormat, if_neg hc, if_neg hk] at h hknown ⊢
    exact (ih h hknown).trans (by rw [List.length_cons, List.length_cons]; omega)

/-- The pointer goes on. -/
theorem length_getNextFormat (f : Bytes) (eft : Eft) (h : (getNextFormat f eft).1 ≠ .done)
    (hknown : (getNextFormat f eft).1 ≠ .unknown) :
    (getNextFormat f eft).2.length < f.length := by
  rw [getNextFormat] at h hknown ⊢
  split_ifs at h hknown ⊢
  · cases f with
    | nil => exact absurd rfl hknown
    | cons c f => exact Nat.lt_succ_of_le (length_fromWidth f)
  · cases f with
    | nil => exact absurd rfl hknown
    | cons c f => exact Nat.lt_succ_of_le (length_fromPrecision f)
  · exact length_seekFormat f h hknown

theorem acceptsFrom_iff {n m : ℕ} {f1 f2 : Bytes} {e1 e2 : Eft} (h1 : f1.length < n)
    (h2 : f2.length < m) : acceptsFrom n f1 e1 f2 e2 = true ↔
      .unknown ∉ formatsFrom n f1 e1 ∧ formatsFrom n f1 e1 <+: formatsFrom m f2 e2 := by
  induction n generalizing m f1 f2 e1 e2 with
  | zero => exact absurd h1 (Nat.not_lt_zero _)
  | succ n ih =>
    cases m with
    | zero => exact absurd h2 (Nat.not_lt_zero _)
    | succ m =>
      rw [acceptsFrom, formatsFrom, formatsFrom]
      dsimp only
      by_cases hdone : (getNextFormat f1 e1).1 = .done
      · simp [hdone]
      by_cases hknown : (getNextFormat f1 e1).1 = .unknown
      · simp [hknown]
      have hlt1 := length_getNextFormat f1 e1 hdone hknown
      rw [if_neg hdone, if_neg hknown, if_neg hdone, if_neg hknown]
      by_cases hsame : (getNextFormat f1 e1).1 = (getNextFormat f2 e2).1
      · have hlt2 := length_getNextFormat f2 e2 (hsame ▸ hdone) (hsame ▸ hknown)
        rw [if_neg (not_not.2 hsame), if_neg (hsame ▸ hdone), if_neg (hsame ▸ hknown),
          ih (hlt1.trans_le (Nat.le_of_lt_succ h1)) (hlt2.trans_le (Nat.le_of_lt_succ h2)),
          List.mem_cons, not_or, hsame, List.cons_prefix_cons]
        have hunknown : Eft.unknown ≠ (getNextFormat f2 e2).1 := fun h =>
          hknown (hsame.trans h.symm)
        exact ⟨fun h => ⟨⟨hunknown, h.1⟩, rfl, h.2⟩, fun h => ⟨h.1.2, h.2.2⟩⟩
      · -- the other format has no conversion here, or one of another type
        rw [if_pos hsame]
        refine iff_of_false Bool.false_ne_true fun h => ?_
        have hprefix := h.2
        split_ifs at hprefix
        · exact List.cons_ne_nil _ _ (List.prefix_nil.1 hprefix)
        · exact hsame (List.cons_prefix_cons.1 hprefix).1
        · exact hsame (List.cons_prefix_cons.1 hprefix).1

/-- A format is accepted exactly if all its conversions are known and their types are the first ones
of the other format. -/
theorem accepts_iff (f1 f2 : Bytes) :
    accepts f1 f2 = true ↔ .unknown ∉ formats f1 ∧ formats f1 <+: formats f2 :=
  acceptsFrom_iff (Nat.lt_succ_self _) (Nat.lt_succ_self _)

/-! ### The types of a format, part by part -/

theorem formatsFrom_fuel {n m : ℕ} {f : Bytes} {eft : Eft} (hn : f.length < n)
    (hm : f.length < m) : formatsFrom n f eft = formatsFrom m f eft := by
  induction n generalizing m f eft with
  | zero => exact absurd hn (Nat.not_lt_zero _)
  | succ n ih =>
    cases m with
    | zero => exact absurd hm (Nat.not_lt_zero _)
    | succ m =>
      rw [formatsFrom, formatsFrom]
      dsimp only
      by_cases hdone : (getNextFormat f eft).1 = .done
      · rw [if_pos hdone, if_pos hdone]
      by_cases hknown : (getNextFormat f eft).1 = .unknown
      · rw [if_neg hdone, if_neg hdone, if_pos hknown, if_pos hknown]
      have hlt := length_getNextFormat f eft hdone hknown
      rw [if_neg hdone, if_neg hdone, if_neg hknown, if_neg hknown,
        ih (hlt.trans_le (Nat.le_of_lt_succ hn)) (hlt.trans_le (Nat.le_of_lt_succ hm))]

theorem getNextFormat_plain (f : Bytes) {eft : Eft} (hwidth : eft ≠ .width)
    (hprecision : eft ≠ .precision) : getNextFormat f eft = seekFormat f := by
  rw [getNextFormat, if_neg hwidth, if_neg hprecision]

theorem seekFormat_literal {c : UInt8} (hc : c ≠ percentSign) (f : Bytes) :
    seekFormat (c :: f) = seekFormat f := by
  cases f with
  | nil => exact if_neg hc
  | cons k f => rw [seekFormat, if_pos hc]

/-- Where the same conversion comes next, the types are the same. -/
theorem formats_congr {f g : Bytes} {e e' : Eft} {n : ℕ}
    (hnext : getNextFormat g e = getNextFormat f e') (hf : f.length ≤ g.length)
    (hn : g.length < n) : formatsFrom n g e = formatsFrom (f.length + 1) f e' := by
  cases n with
  | zero => exact absurd hn (Nat.not_lt_zero _)
  | succ n =>
    rw [formatsFrom, formatsFrom, hnext]
    dsimp only
    by_cases hdone : (getNextFormat f e').1 = .done
    · rw [if_pos hdone, if_pos hdone]
    by_cases hknown : (getNextFormat f e').1 = .unknown
    · rw [if_neg hdone, if_neg hdone, if_pos hknown, if_pos hknown]
    have hlt := length_getNextFormat f e' hdone hknown
    rw [if_neg hdone, if_neg hdone, if_neg hknown, if_neg hknown,
      formatsFrom_fuel (hlt.trans_le (hf.trans (Nat.le_of_lt_succ hn))) hlt]

theorem formats_literal {c : UInt8} (hc : c ≠ percentSign) (f : Bytes) :
    formats (c :: f) = formats f :=
  formats_congr (seekFormat_literal hc f) (Nat.le_succ _) (Nat.lt_succ_self _)

theorem formats_percent (f : Bytes) : formats (percentSign :: percentSign :: f) = formats f :=
  @formats_congr f (percentSign :: percentSign :: f) .start .start _ rfl (Nat.le_add_right _ 2)
    (Nat.lt_succ_self _)

/-- A conversion, and what is behind its letter. -/
theorem formats_conversion {k c : UInt8} {f g : Bytes} {eft : Eft} (hk : k ≠ percentSign)
    (hflags : getNextFormatFromFlags (k :: f) = (eft, c :: g)) (hc : c ≠ percentSign)
    (hwidth : eft ≠ .width) (hprecision : eft ≠ .precision) (hdone : eft ≠ .done)
    (hknown : eft ≠ .unknown) : formats (percentSign :: k :: f) = eft :: formats g := by
  have hnext : getNextFormat (percentSign :: k :: f) .start = (eft, c :: g) := by
    rw [getNextFormat_plain _ Eft.noConfusion Eft.noConfusion, seekFormat,
      if_neg (not_not.2 rfl), if_pos hk, hflags]
  have hlen := length_fromFlags (k :: f)
  rw [hflags] at hlen
  rw [formats, formatsFrom, hnext]
  dsimp only
  rw [if_neg hdone, if_neg hknown]
  congr 1
  refine formats_congr ?_ (Nat.le_succ _) (Nat.lt_succ_of_le hlen)
  rw [getNextFormat_plain _ hwidth hprecision, seekFormat_literal hc]
  rfl

/-! ### The arguments of a call -/

/-- What an argument is. -/
inductive Kind
  | word
  | text
  deriving DecidableEq

/-- What an argument of a type is, if it is one of those that `Arg` has. -/
def Eft.kind : Eft → Option Kind
  | .int | .long | .quad | .shortPointer | .intPointer | .longPointer | .quadPointer
  | .width | .precision => some .word
  | .string => some .text
  | .start | .double | .longDouble | .done | .unknown => none

/-- What an argument is. -/
def argKind : Arg → Kind
  | .word _ => .word
  | .str _ => .text

/-- There is an argument of the right kind for each type. -/
def Suits (types : List Eft) (args : List Arg) : Prop :=
  types.map Eft.kind <+: args.map fun a => some (argKind a)

instance (types : List Eft) (args : List Arg) : Decidable (Suits types args) :=
  inferInstanceAs (Decidable (_ <+: _))

theorem suits_cons {eft : Eft} {types : List Eft} {args : List Arg} :
    Suits (eft :: types) args ↔
      ∃ a rest, args = a :: rest ∧ eft.kind = some (argKind a) ∧ Suits types rest := by
  cases args with
  | nil =>
    refine iff_of_false (fun h => List.cons_ne_nil _ _ (List.prefix_nil.1 h)) ?_
    rintro ⟨a, rest, h, -⟩
    exact List.cons_ne_nil _ _ h.symm
  | cons a args =>
    refine List.cons_prefix_cons.trans ⟨fun h => ⟨a, args, rfl, h⟩, ?_⟩
    rintro ⟨a', rest, h, hkind⟩
    obtain ⟨rfl, rfl⟩ := List.cons.inj h
    exact hkind

theorem Suits.mono {types types' : List Eft} {args : List Arg} (h : Suits types' args)
    (hle : types <+: types') : Suits types args :=
  (hle.map Eft.kind).trans h

/-- Arguments that are right have types that are known. -/
theorem Suits.known {types : List Eft} {args : List Arg} (h : Suits types args) :
    .unknown ∉ types := by
  induction types generalizing args with
  | nil => exact List.not_mem_nil
  | cons eft types ih =>
    obtain ⟨a, rest, -, hkind, hrest⟩ := suits_cons.1 h
    refine List.not_mem_cons_of_ne_of_not_mem ?_ (ih hrest)
    rintro rfl
    cases hkind

/-! ### What the routine does with a format -/

/-- How many arguments are taken before the first conversion that is left to the library, if there
is one. -/
def foreignFrom : ℕ → Bytes → Option ℕ
  | 0, _ => none
  | _ + 1, [] => none
  | n + 1, c :: format =>
      if c ≠ percentSign then foreignFrom n format
      else
        match format with
        | [] => some 0
        | k :: rest =>
            if k = 115 ∨ k = 99 then (foreignFrom n rest).map (· + 1)
            else if k = percentSign then foreignFrom n rest
            else
              match numberAt k rest with
              | none => some 0
              | some number => (foreignFrom n number.tail).map (· + 1)

def foreign (f : Bytes) : Option ℕ := foreignFrom f.length f

theorem conversion_number {c : UInt8} (hc : c ∈ bytes "dDioOpuUxX") :
    (conversion false false false false c).kind = some .word := by
  have hall : (bytes "dDioOpuUxX").all
      (fun c => decide ((conversion false false false false c).kind = some .word)) = true := rfl
  exact of_decide_eq_true (List.all_eq_true.1 hall c hc)

/-- Behind a prefix there is a number, or something unknown. -/
theorem conversion_prefixed (lg : Bool) (c : UInt8) :
    conversion false lg (!lg) false c = .unknown ∨
      c ≠ percentSign ∧ (conversion false lg (!lg) false c).kind = some .word ∧
        conversion false lg (!lg) false c ≠ .width ∧
          conversion false lg (!lg) false c ≠ .precision := by
  by_cases hc : c = percentSign
  · subst hc
    cases lg <;> exact .inl rfl
  · rw [conversion]
    cases lg <;> split_ifs <;> simp_all [Eft.kind]

/-- The letters that the routine knows are no flags, and neither width nor precision. -/
theorem fromFlags_letter {k : UInt8} (hk : k ∈ bytes "scqldDioOpuUxX") (rest : Bytes) :
    getNextFormatFromFlags (k :: rest) = getNextFormatFromPrecision (k :: rest) := by
  have hall : (bytes "scqldDioOpuUxX").all (fun k => decide
      (decide (k ∈ bytes "#0- +") = false ∧ k ≠ 42 ∧ isDigit k = false ∧ k ≠ 46)) = true := rfl
  obtain ⟨hflag, hstar, hdigit, hdot⟩ := of_decide_eq_true (List.all_eq_true.1 hall k hk)
  rw [getNextFormatFromFlags]
  dsimp only
  rw [List.dropWhile_cons_of_neg (by rw [hflag]; exact Bool.false_ne_true), List.head?_cons,
    if_neg (fun h => hstar (Option.some.inj h)),
    List.dropWhile_cons_of_neg (by rw [hdigit]; exact Bool.false_ne_true),
    if_neg (List.cons_ne_nil _ _), getNextFormatFromWidth, List.head?_cons,
    if_neg (fun h => hdot (Option.some.inj h))]

/-- A letter without a prefix. -/
theorem fromFlags_conversion {k : UInt8} (hk : k ∈ bytes "scdDioOpuUxX") (rest : Bytes) :
    getNextFormatFromFlags (k :: rest) = (conversion false false false false k, k :: rest) := by
  have hall : (bytes "scdDioOpuUxX").all (fun k => decide
      (k ∈ bytes "scqldDioOpuUxX" ∧ k ≠ 104 ∧ k ≠ 108 ∧ k ≠ 113 ∧ k ≠ 76)) = true := rfl
  obtain ⟨hletter, hh, hl, hq, hlarge⟩ := of_decide_eq_true (List.all_eq_true.1 hall k hk)
  rw [fromFlags_letter hletter, getNextFormatFromPrecision, if_neg hh, if_neg hl, if_neg hq,
    if_neg hlarge, atConversion]

theorem atConversion_prefixed (lg : Bool) (f : Bytes) :
    (atConversion false lg (!lg) false f).1 = .unknown ∨
      ∃ eft letter g, f = letter :: g ∧ letter ≠ percentSign ∧
        atConversion false lg (!lg) false f = (eft, letter :: g) ∧ eft.kind = some .word ∧
          eft ≠ .width ∧ eft ≠ .precision := by
  cases f with
  | nil => exact .inl rfl
  | cons letter g =>
    refine (conversion_prefixed lg letter).imp id ?_
    rintro ⟨hletter, h⟩
    exact ⟨_, letter, g, rfl, hletter, rfl, h⟩

/-- Where the routine reads a number there is one, or something unknown. -/
theorem fromFlags_number {k : UInt8} {rest number : Bytes} (h : numberAt k rest = some number) :
    (getNextFormatFromFlags (k :: rest)).1 = .unknown ∨
      ∃ eft letter g, number = letter :: g ∧ letter ≠ percentSign ∧
        getNextFormatFromFlags (k :: rest) = (eft, letter :: g) ∧ eft.kind = some .word ∧
          eft ≠ .width ∧ eft ≠ .precision := by
  rw [numberAt] at h
  by_cases hq : k = 113
  · subst hq
    rw [if_pos (.inl rfl)] at h
    rw [fromFlags_letter (by decide), getNextFormatFromPrecision, if_neg (by decide),
      if_neg (by decide), if_pos rfl]
    split_ifs at h with hl
    · -- `"ql"` is unknown
      cases rest with
      | nil => cases hl
      | cons c rest =>
        obtain rfl : c = 108 := Option.some.inj hl
        exact .inl rfl
    · obtain rfl := Option.some.inj h
      exact atConversion_prefixed false rest
  by_cases hl : k = 108
  · subst hl
    rw [if_pos (.inr rfl)] at h
    rw [fromFlags_letter (by decide), getNextFormatFromPrecision, if_neg (by decide), if_pos rfl]
    split_ifs at h ⊢
    · obtain rfl := Option.some.inj h
      exact atConversion_prefixed false rest.tail
    · obtain rfl := Option.some.inj h
      exact atConversion_prefixed true rest
  · rw [if_neg (not_or.2 ⟨hq, hl⟩)] at h
    split_ifs at h with hk
    obtain rfl := Option.some.inj h
    have hall : (bytes "dDioOpuUxX").all (fun k => decide
        (k ∈ bytes "scdDioOpuUxX" ∧ k ≠ percentSign ∧
          conversion false false false false k ≠ .width ∧
            conversion false false false false k ≠ .precision)) = true := rfl
    obtain ⟨hletter, hpercent, hwidth, hprecision⟩ :=
      of_decide_eq_true (List.all_eq_true.1 hall k hk)
    exact .inr ⟨_, k, rest, rfl, hpercent, fromFlags_conversion hletter rest,
      conversion_number hk, hwidth, hprecision⟩

theorem formats_unknown {k : UInt8} {rest : Bytes} (hk : k ≠ percentSign)
    (h : (getNextFormatFromFlags (k :: rest)).1 = .unknown) :
    formats (percentSign :: k :: rest) = [.unknown] := by
  have hnext : getNextFormat (percentSign :: k :: rest) .start =
      getNextFormatFromFlags (k :: rest) := by
    rw [getNextFormat_plain _ Eft.noConfusion Eft.noConfusion, seekFormat,
      if_neg (not_not.2 rfl), if_pos hk]
  rw [formats, formatsFrom, hnext]
  dsimp only
  rw [h, if_neg Eft.noConfusion, if_pos rfl]

/-- With the right arguments the routine finds all those that it takes itself. -/
theorem textLoop_suits {n : ℕ} {f : Bytes} {args : List Arg} (hn : f.length ≤ n)
    (h : Suits (formats f) args) :
    ∃ text, textLoop n f args = some (text, (foreignFrom n f).map args.drop) := by
  induction n generalizing f args with
  | zero => exact ⟨[], rfl⟩
  | succ n ih =>
    cases f with
    | nil => exact ⟨[], rfl⟩
    | cons c f =>
      have hf : f.length ≤ n := Nat.le_of_succ_le_succ hn
      rw [textLoop.eq_def, foreignFrom.eq_def]
      dsimp only
      by_cases hc : c ≠ percentSign
      · rw [formats_literal hc] at h
        obtain ⟨text, htext⟩ := ih hf h
        rw [if_pos hc, if_pos hc, htext]
        exact ⟨c :: text, rfl⟩
      rw [if_neg hc, if_neg hc]
      obtain rfl := not_not.1 hc
      cases f with
      | nil => exact ⟨[], rfl⟩
      | cons k rest =>
        have hrest : rest.length ≤ n := (Nat.le_succ _).trans hf
        -- one argument is taken, and the rest of the format is read
        have hone : ∀ {g : Bytes} {a : Arg} {left : List Arg} (s : Bytes), g.length ≤ n →
            Suits (formats g) left → args = a :: left →
              ∃ text, (textLoop n g left).map (fun t => (s ++ t.1, t.2)) =
                some (text, ((foreignFrom n g).map (· + 1)).map args.drop) := by
          intro g a left s hg hleft hargs
          obtain ⟨text, htext⟩ := ih hg hleft
          rw [htext, hargs, Option.map_map]
          exact ⟨s ++ text, rfl⟩
        dsimp only
        by_cases hs : k = 115
        · subst hs
          rw [formats_conversion (by decide) (fromFlags_conversion (by decide) rest) (by decide)
            Eft.noConfusion Eft.noConfusion Eft.noConfusion Eft.noConfusion] at h
          obtain ⟨a, left, hargs, hkind, hleft⟩ := suits_cons.1 h
          rw [if_pos rfl, if_pos (.inl rfl)]
          cases a with
          | word w => cases hkind
          | str s =>
            have hfound := hone (s.getD nullstring) hrest hleft hargs
            rwa [hargs] at hfound ⊢
        rw [if_neg hs]
        by_cases hchar : k = 99
        · subst hchar
          rw [formats_conversion (by decide) (fromFlags_conversion (by decide) rest) (by decide)
            Eft.noConfusion Eft.noConfusion Eft.noConfusion Eft.noConfusion] at h
          obtain ⟨a, left, hargs, hkind, hleft⟩ := suits_cons.1 h
          rw [if_pos rfl, if_pos (.inr rfl)]
          cases a with
          | word w =>
            have hfound := hone [w.toUInt8] hrest hleft hargs
            rwa [hargs] at hfound ⊢
          | str s => cases hkind
        rw [if_neg hchar, if_neg (not_or.2 ⟨hs, hchar⟩)]
        by_cases hpercent : k = percentSign
        · subst hpercent
          rw [formats_percent] at h
          obtain ⟨text, htext⟩ := ih hrest h
          rw [if_pos rfl, if_pos rfl, htext]
          exact ⟨percentSign :: text, rfl⟩
        rw [if_neg hpercent, if_neg hpercent]
        cases hnumber : numberAt k rest with
        | none => exact ⟨[], rfl⟩
        | some number =>
          rcases fromFlags_number hnumber with hunknown | hfound
          · rw [formats_unknown hpercent hunknown] at h
            exact absurd (List.mem_singleton_self _) h.known
          · obtain ⟨eft, letter, g, rfl, hletter, hflags, hword, hwidth, hprecision⟩ := hfound
            have hlen := length_fromFlags (k :: rest)
            rw [hflags] at hlen
            rw [formats_conversion hpercent hflags hletter hwidth hprecision
              (by rintro rfl; cases hword) (by rintro rfl; cases hword)] at h
            obtain ⟨a, left, hargs, hkind, hleft⟩ := suits_cons.1 h
            cases a with
            | word w =>
              have hfound := hone (numberText letter w)
                ((Nat.le_succ _).trans (hlen.trans hf)) hleft hargs
              rwa [hargs] at hfound ⊢
            | str s =>
              rw [hword] at hkind
              cases hkind

/-- A call takes only arguments that are there and of the right kinds, and so does the library,
which is given the whole format, if it is called. -/
def PrintsSafely (f : Bytes) (args : List Arg) : Prop :=
  ∀ size, ∃ r, vsnprintf size f args = some r ∧
    ∀ left, r = .library left → Suits (formats f) left

theorem vsnprintf_zero (f : Bytes) (args : List Arg) :
    vsnprintf 0 f args = vsnprintf 2147483647 f args := rfl

/-- The library is given the arguments that are left. -/
theorem vsnprintf_suits {f : Bytes} {args : List Arg} (h : Suits (formats f) args) (size : ℕ) :
    ∃ r, vsnprintf size f args = some r ∧
      ∀ left, r = .library left → ∃ j, foreign f = some j ∧ left = args.drop j := by
  obtain ⟨text, htext⟩ := textLoop_suits (Nat.le_refl _) h
  have hpos : ∀ size, 0 < size → ∃ r, vsnprintf size f args = some r ∧
      ∀ left, r = .library left → ∃ j, foreign f = some j ∧ left = args.drop j := by
    intro size hsize
    refine ⟨_, vsnprintf_text hsize htext, fun left hleft => ?_⟩
    unfold within at hleft
    split_ifs at hleft
    cases hforeign : foreignFrom f.length f with
    | none =>
      rw [hforeign] at hleft
      cases hleft
    | some j =>
      rw [hforeign] at hleft
      exact ⟨j, hforeign, (Printed.library.inj hleft).symm⟩
  rcases Nat.eq_zero_or_pos size with rfl | hsize
  · rw [vsnprintf_zero]
    exact hpos _ (by decide)
  · exact hpos size hsize

theorem printsSafely_iff {f fmt : Bytes} (hle : formats f <+: formats fmt)
    (hargs : ∃ args, Suits (formats fmt) args) :
    (∀ args, Suits (formats fmt) args → PrintsSafely f args) ↔
      ∀ j, foreign f = some j →
        (formats f).map Eft.kind <+: ((formats fmt).map Eft.kind).drop j := by
  constructor
  · intro hsafe j hj
    -- as many arguments as the format takes
    obtain ⟨all, hall⟩ := hargs
    have hkinds : (all.take (formats fmt).length).map (fun a => some (argKind a)) =
        (formats fmt).map Eft.kind := by
      rw [List.map_take, ← List.length_map Eft.kind]
      exact (List.prefix_iff_eq_take.1 hall).symm
    have hsuits : Suits (formats fmt) (all.take (formats fmt).length) := by
      rw [Suits, hkinds]
    obtain ⟨text, htext⟩ := textLoop_suits (Nat.le_refl _) (hsuits.mono hle)
    obtain ⟨r, hr, hleft⟩ := hsafe _ hsuits (text.length + 1)
    rw [vsnprintf_text (Nat.succ_pos _) htext] at hr
    obtain rfl := Option.some.inj hr
    have hforeign : foreignFrom f.length f = some j := hj
    rw [hforeign] at hleft
    have hright := hleft _ (within_library (Nat.lt_succ_self _))
    rwa [Suits, List.map_drop, hkinds] at hright
  · intro hright args hargs size
    obtain ⟨r, hr, hleft⟩ := vsnprintf_suits (hargs.mono hle) size
    refine ⟨r, hr, fun left hlib => ?_⟩
    obtain ⟨j, hj, rfl⟩ := hleft left hlib
    rw [Suits, List.map_drop]
    exact (hright j hj).trans (hargs.drop j)

/-- The text that a message set has for a message. -/
def messageText (conf : MessageConf) (name fmt : Bytes) : Bytes :=
  Messages.textIn accepts conf name fmt

theorem formats_messageText (conf : MessageConf) (name fmt : Bytes) :
    formats (messageText conf name fmt) <+: formats fmt := by
  rw [messageText, Messages.textIn]
  split
  · exact List.prefix_refl _
  · rw [Messages.fmtcheck]
    split_ifs with h
    · exact (acceptsFrom_iff (Nat.lt_succ_self _) (Nat.lt_succ_self _)).1 h |>.2
    · exact List.prefix_refl _

/-- Whatever the configuration has for a message, the routine finds the arguments that it takes
itself. The library finds its own exactly if those that the format takes are right again behind
those that are taken already. -/
theorem messageText_safe_iff (conf : MessageConf) (name fmt : Bytes)
    (hargs : ∃ args, Suits (formats fmt) args) :
    (∀ args size, Suits (formats fmt) args →
      ∃ r, vsnprintf size (messageText conf name fmt) args = some r) ∧
    ((∀ args, Suits (formats fmt) args → PrintsSafely (messageText conf name fmt) args) ↔
      ∀ j, foreign (messageText conf name fmt) = some j →
        (formats (messageText conf name fmt)).map Eft.kind <+:
          ((formats fmt).map Eft.kind).drop j) := by
  have hle := formats_messageText conf name fmt
  refine ⟨fun args size h => ?_, printsSafely_iff hle hargs⟩
  obtain ⟨r, hr, -⟩ := vsnprintf_suits (h.mono hle) size
  exact ⟨r, hr⟩

/-- A width is accepted; behind a string it makes the library take the wrong arguments. -/
def widthConf : MessageConf := [(bytes "kill-notice", ⟨bytes "%s was killed %5d times", by decide⟩)]

theorem messageText_safe_iff_width : ¬ ∀ args, Suits (formats (bytes "%s: %d")) args →
    PrintsSafely (messageText widthConf (bytes "kill-notice") (bytes "%s: %d")) args := by
  intro hsafe
  have hforeign : foreign (messageText widthConf (bytes "kill-notice") (bytes "%s: %d")) =
      some 1 := by decide
  have hright := (messageText_safe_iff widthConf (bytes "kill-notice") (bytes "%s: %d")
    ⟨[.str none, .word 0], by decide⟩).2.1 hsafe 1 hforeign
  exact absurd hright (by decide)

end Fmtcheck

end Ithildin
