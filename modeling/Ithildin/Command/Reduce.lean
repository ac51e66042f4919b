import Ithildin.Lib.Buffer
import Ithildin.Lib.Firsts
import Ithildin.Match
import Ithildin.Protocol.Parse
import Mathlib.Data.List.Flatten
import Mathlib.Tactic.Common

/-!
# Lists without repetitions

`reduce_string_list` of `command.c`, which makes `PRIVMSG` send to each target once.

* `strsepAt`, `strlcat`: what it calls, on a buffer;
* `reduceStringList`: its static buffer when it returns, and whether each store was inside;
* `ListHeld`: what the buffer holds between two tokens;
* `reduces_iff`: the lists that are reduced as they should be.
-/

namespace Ithildin

open Buffer

/-- `strsep` from `i` on: the token, the buffer with its separator cut out, and the place behind
that; nothing if the token is the last one. -/
def strsepAt (sep : Bytes) (i : ℕ) (b : Checked UInt8) : Bytes × Checked UInt8 × Option ℕ :=
  let s := strAt (b.mem.drop i)
  let t := s.takeWhile (· ∉ sep)
  if t.length = s.length then (t, b, none)
  else (t, b.store (i + t.length : ℕ) 0, some (i + t.length + 1))

/-- `strlcat`: the buffer and the length that was tried for. -/
def strlcat (b : Checked UInt8) (src : Bytes) (siz : ℕ) : Checked UInt8 × ℕ :=
  let dlen := min (strAt b.mem).length siz
  if siz = dlen then (b, dlen + src.length)
  else (Checked.storeAll dlen (src.take (siz - dlen - 1) ++ [0]) b, dlen + src.length)

/-- `*(bptr - 1) = *sep`; there is nothing in front of NULL. -/
def mend (sep : Bytes) (bptr : Option ℕ) (b : Checked UInt8) : Checked UInt8 :=
  match bptr with
  | some j => b.store (j - 1 : ℤ) (sep.headD 0)
  | none => ⟨b.mem, false⟩

/-- The inner loop, for so many tokens: whether it comes to `cur`, and the buffer. -/
def findToken (sep cur : Bytes) : ℕ → Option ℕ → Checked UInt8 → Bool × Checked UInt8
  | 0, _, b => (false, b)
  | _ + 1, none, b => (false, b)
  | n + 1, some i, b =>
      let (t, b, bptr) := strsepAt sep i b
      if t = [] then findToken sep cur n bptr b
      else if sameCase t cur then (true, mend sep bptr b)
      else if bptr = none then findToken sep cur n bptr b
      else findToken sep cur n bptr (mend sep bptr b)

/-- A token of the list: `buf` and `len` afterwards. -/
def reduceToken (sep : Bytes) (s : Checked UInt8 × ℕ) (cur : Bytes) : Checked UInt8 × ℕ :=
  if cur = [] then s
  else
    let (found, b) := findToken sep cur (s.1.mem.length + 1) (some 0) s.1
    if found then (b, s.2)
    else
      let (b, len) := strlcat b cur COMMAND_MAXARGLEN
      let b := b.store len (sep.headD 0)
      (b.store (len + 1 : ℕ) 0, len + 1)

/-- The tokens that `strsep` takes from the list, empty ones too. -/
def listTokens (list sep : Bytes) : List Bytes := list.splitOnP (· ∈ sep)

/-- `reduce_string_list`: what it leaves in `buf`, which it returns. -/
def reduceStringList (buf list sep : Bytes) : Checked UInt8 :=
  let s := (listTokens list sep).foldl (reduceToken sep) ((Checked.mk buf true).store 0 0, 0)
  s.1.store (s.2 - 1 : ℤ) 0

/-! ### What it is to leave -/

/-- The tokens that are not empty, each at its first place, in whatever case. -/
def distinctTokens (list sep : Bytes) : List Bytes :=
  Firsts.firsts (List.map toLower) (fun _ => false) ((listTokens list sep).filter (· ≠ []))

/-- The string in `buf` is what the list is reduced to, and each store was inside. -/
def Reduces (buf list sep : Bytes) : Prop :=
  (reduceStringList buf list sep).inside = true ∧
    strAt (reduceStringList buf list sep).mem =
      (sep.take 1).intercalate (distinctTokens list sep)

/-! ### The buffer between two tokens -/

/-- A token that is not empty, of bytes that are no separators. -/
structure IsListToken (sep t : Bytes) : Prop where
  ne_nil : t ≠ []
  text : IsText t
  whole : ∀ c ∈ t, c ∉ sep

/-- Tokens with the first separator behind each. -/
def held (sep : Bytes) (ts : List Bytes) : Bytes := ts.flatMap (· ++ [sep.headD 0])

variable {sep cur : Bytes} {ts : List Bytes} {inside : Bool}

theorem held_concat (sep : Bytes) (ts : List Bytes) (t : Bytes) :
    held sep (ts ++ [t]) = held sep ts ++ t ++ [sep.headD 0] := by
  simp [held]

theorem held_cons (sep t : Bytes) (ts : List Bytes) :
    held sep (t :: ts) = t ++ sep.headD 0 :: held sep ts := by
  simp [held]

theorem length_held_cons (sep t : Bytes) (ts : List Bytes) :
    (held sep (t :: ts)).length = t.length + 1 + (held sep ts).length := by
  rw [held_cons, List.length_append, List.length_cons]
  omega

theorem length_le_length_held (sep : Bytes) (ts : List Bytes) :
    ts.length ≤ (held sep ts).length := by
  induction ts with
  | nil => exact le_rfl
  | cons t ts ih =>
    rw [length_held_cons, List.length_cons]
    omega

/-- The first separator is one, and no NUL. -/
theorem headD_mem (hsep : IsText sep) (hne : sep ≠ []) : sep.headD 0 ∈ sep ∧ sep.headD 0 ≠ 0 := by
  cases sep with
  | nil => exact absurd rfl hne
  | cons c sep => exact ⟨List.mem_cons_self, (isText_cons.mp hsep).1⟩

theorem isText_held (hsep : IsText sep) (hne : sep ≠ [] ∨ ts = [])
    (hts : ∀ t ∈ ts, IsListToken sep t) : IsText (held sep ts) := by
  rcases hne with hne | rfl
  · intro hzero
    obtain ⟨t, ht, hzero⟩ := List.mem_flatMap.mp hzero
    rcases List.mem_append.mp hzero with hzero | hzero
    · exact (hts t ht).text hzero
    · exact (headD_mem hsep hne).2 (List.mem_singleton.mp hzero).symm
  · exact List.not_mem_nil

/-- A token is cut off at its separator. -/
theorem strsepAt_token {t l r : Bytes} {c : UInt8} (ht : IsListToken sep t) (hc : c ∈ sep)
    (hzero : c ≠ 0) :
    strsepAt sep l.length ⟨l ++ (t ++ c :: r), inside⟩ =
      (t, ⟨l ++ (t ++ 0 :: r), inside⟩, some (l.length + t.length + 1)) := by
  have hstr : strAt (t ++ c :: r) = t ++ c :: strAt r := by
    rw [strAt_text_append ht.text, strAt_cons hzero]
  have htake : (t ++ c :: strAt r).takeWhile (· ∉ sep) = t := by
    rw [List.takeWhile_append_of_pos (by simpa using ht.whole)]
    simp [hc]
  have hcut := @Checked.store_append _ inside 0 (l ++ t) c r
  rw [List.append_assoc, List.append_assoc, List.length_append] at hcut
  unfold strsepAt
  dsimp only
  rw [List.drop_left, hstr, htake, if_neg (by simp), hcut]

theorem strsepAt_end (l r : Bytes) :
    strsepAt sep l.length ⟨l ++ 0 :: r, inside⟩ = ([], ⟨l ++ 0 :: r, inside⟩, none) := by
  unfold strsepAt
  dsimp only
  rw [List.drop_left, strAt_zero]
  rfl

theorem findToken_none (n : ℕ) (b : Checked UInt8) : findToken sep cur n none b = (false, b) := by
  cases n <;> rfl

/-- The inner loop leaves the buffer as it was. -/
theorem findToken_held (hsep : IsText sep) (hne : sep ≠ [] ∨ ts = [])
    (hts : ∀ t ∈ ts, IsListToken sep t) (l r : Bytes) {n : ℕ} (hn : ts.length < n) :
    findToken sep cur n (some l.length) ⟨l ++ (held sep ts ++ 0 :: r), inside⟩ =
      (ts.any (sameCase · cur), ⟨l ++ (held sep ts ++ 0 :: r), inside⟩) := by
  induction ts generalizing l n with
  | nil =>
    obtain ⟨n, rfl⟩ : ∃ m, n = m + 1 := ⟨n - 1, by omega⟩
    have hheld : held sep [] ++ 0 :: r = 0 :: r := rfl
    rw [hheld, findToken, strsepAt_end]
    dsimp only
    rw [if_pos rfl, findToken_none]
    rfl
  | cons t ts ih =>
    obtain ⟨n, rfl⟩ : ∃ m, n = m + 1 := ⟨n - 1, by omega⟩
    have hne' : sep ≠ [] := hne.resolve_right (by simp)
    obtain ⟨hmem, hzero⟩ := headD_mem hsep hne'
    have ht := hts t List.mem_cons_self
    have hheld : held sep (t :: ts) ++ 0 :: r = t ++ sep.headD 0 :: (held sep ts ++ 0 :: r) := by
      rw [held_cons, List.append_assoc, List.cons_append]
    have hcut := @strsepAt_token sep inside t l (held sep ts ++ 0 :: r) _ ht hmem hzero
    have hmend : mend sep (some (l.length + t.length + 1))
        ⟨l ++ (t ++ 0 :: (held sep ts ++ 0 :: r)), inside⟩ =
          ⟨l ++ (t ++ sep.headD 0 :: (held sep ts ++ 0 :: r)), inside⟩ := by
      have hstore := @Checked.store_append _ inside (sep.headD 0) (l ++ t) 0
        (held sep ts ++ 0 :: r)
      have hplace : ((l.length + t.length + 1 : ℕ) - 1 : ℤ) = ((l ++ t).length : ℕ) := by
        rw [List.length_append]
        omega
      rw [mend, hplace, ← List.append_assoc, hstore, List.append_assoc]
    rw [hheld, findToken, hcut]
    dsimp only
    rw [if_neg ht.ne_nil, hmend, List.any_cons]
    cases hsame : sameCase t cur with
    | true => rfl
    | false =>
      have hrest := ih (.inl hne') (fun t' ht' => hts t' (List.mem_cons_of_mem _ ht'))
        (l ++ (t ++ [sep.headD 0])) (by simpa using hn)
      have hplace : (l ++ (t ++ [sep.headD 0])).length = l.length + t.length + 1 := by
        simp only [List.length_append, List.length_singleton]
        omega
      have hshape : l ++ (t ++ [sep.headD 0]) ++ (held sep ts ++ 0 :: r) =
          l ++ (t ++ sep.headD 0 :: (held sep ts ++ 0 :: r)) := by simp
      rw [hplace, hshape] at hrest
      rw [if_neg Bool.false_ne_true, if_neg (by simp), hrest, Bool.false_or]

/-- The string in the buffer is `held sep ts`, `len` its length, and each store was inside. -/
structure ListHeld (sep : Bytes) (ts : List Bytes) (s : Checked UInt8 × ℕ) : Prop where
  bytes : ∃ r, s.1.mem = held sep ts ++ 0 :: r
  size : s.1.mem.length = COMMAND_MAXARGLEN + 1
  inside : s.1.inside = true
  len : s.2 = (held sep ts).length

variable {s : Checked UInt8 × ℕ}

theorem length_strlcat (b : Checked UInt8) (src : Bytes) (siz : ℕ) :
    (strlcat b src siz).1.mem.length = b.mem.length := by
  unfold strlcat
  dsimp only
  split
  · rfl
  · exact Checked.length_storeAll _ _ b

theorem strlcat_len (b : Checked UInt8) (src : Bytes) (siz : ℕ) :
    (strlcat b src siz).2 = min (strAt b.mem).length siz + src.length := by
  unfold strlcat
  dsimp only
  split <;> rfl

/-- With room for the string and its NUL. -/
theorem strlcat_append {text src r : Bytes} {siz : ℕ} (htext : IsText text)
    (hsiz : text.length + src.length < siz) (hr : src.length ≤ r.length) :
    strlcat ⟨text ++ 0 :: r, true⟩ src siz =
      (⟨text ++ src ++ 0 :: r.drop src.length, true⟩, text.length + src.length) := by
  have hdlen : min text.length siz = text.length := min_eq_left (by omega)
  have htake : src.take (siz - text.length - 1) = src := List.take_of_length_le (by omega)
  have hstores := @Checked.storeAll_append _ true text (src ++ [0]) (0 :: r) (by simpa using hr)
  unfold strlcat
  dsimp only
  rw [strAt_append htext, hdlen, if_neg (by omega), htake, hstores]
  simp

theorem reduceToken_eq (hsep : IsText sep) (hne : sep ≠ [] ∨ ts = [])
    (hts : ∀ t ∈ ts, IsListToken sep t) (h : ListHeld sep ts s) (hcur : cur ≠ []) :
    reduceToken sep s cur =
      if ts.any (sameCase · cur) then s
      else
        ((((strlcat s.1 cur COMMAND_MAXARGLEN).1.store (strlcat s.1 cur COMMAND_MAXARGLEN).2
          (sep.headD 0)).store ((strlcat s.1 cur COMMAND_MAXARGLEN).2 + 1 : ℕ) 0),
          (strlcat s.1 cur COMMAND_MAXARGLEN).2 + 1) := by
  obtain ⟨⟨mem, inside⟩, len⟩ := s
  obtain ⟨⟨r, hmem⟩, hsize, -, -⟩ := h
  dsimp only at hmem hsize
  have hn : ts.length < mem.length + 1 := by
    have hle := length_le_length_held sep ts
    rw [hmem, List.length_append]
    omega
  have hfind := @findToken_held sep cur ts inside hsep hne hts [] r _ hn
  rw [List.nil_append, ← hmem] at hfind
  unfold reduceToken
  dsimp only
  rw [if_neg hcur, show (some 0 : Option ℕ) = some ([] : Bytes).length from rfl, hfind]

/-- A token that is there already leaves everything as it is. -/
theorem reduceToken_known (hsep : IsText sep) (hne : sep ≠ [] ∨ ts = [])
    (hts : ∀ t ∈ ts, IsListToken sep t) (h : ListHeld sep ts s) (hcur : cur ≠ [])
    (hknown : ∃ t ∈ ts, sameCase t cur = true) : reduceToken sep s cur = s := by
  rw [reduceToken_eq hsep hne hts h hcur, if_pos (List.any_eq_true.mpr hknown)]

/-- Another one is put behind the others as long as there is room. -/
theorem reduceToken_new (hsep : IsText sep) (hne : sep ≠ [] ∨ ts = [])
    (hts : ∀ t ∈ ts, IsListToken sep t) (h : ListHeld sep ts s) (hcur : cur ≠ [])
    (hnew : ¬ ∃ t ∈ ts, sameCase t cur = true)
    (hroom : (held sep (ts ++ [cur])).length ≤ COMMAND_MAXARGLEN) :
    ListHeld sep (ts ++ [cur]) (reduceToken sep s cur) := by
  rw [reduceToken_eq hsep hne hts h hcur, if_neg (fun hany => hnew (List.any_eq_true.mp hany))]
  obtain ⟨⟨mem, inside⟩, len⟩ := s
  obtain ⟨⟨r, hmem⟩, hsize, hinside, -⟩ := h
  dsimp only at hmem hsize hinside
  subst hmem hinside
  rw [List.length_append, List.length_cons] at hsize
  have hheld := congrArg List.length (held_concat sep ts cur)
  rw [List.length_append, List.length_append, List.length_singleton] at hheld
  obtain ⟨d, r', hr⟩ : ∃ d r', r.drop cur.length = d :: r' := by
    refine List.exists_cons_of_length_pos ?_
    rw [List.length_drop]
    omega
  have hlen := congrArg List.length hr
  rw [List.length_drop, List.length_cons] at hlen
  have hcat := @strlcat_append (held sep ts) cur r COMMAND_MAXARGLEN (isText_held hsep hne hts)
    (by omega) (by omega)
  have hsepar := @Checked.store_append _ true (sep.headD 0) (held sep ts ++ cur) 0 (d :: r')
  have hzero := @Checked.store_append _ true 0 (held sep ts ++ cur ++ [sep.headD 0]) d r'
  rw [List.length_append] at hsepar
  rw [List.length_append, List.length_append, List.length_singleton, List.append_assoc,
    List.singleton_append] at hzero
  dsimp only
  rw [hcat, hr]
  dsimp only
  rw [hsepar, hzero, ← held_concat, ← hheld]
  refine ⟨⟨r', rfl⟩, ?_, rfl, rfl⟩
  rw [List.length_append, List.length_cons]
  omega

/-- With one byte too few, the NUL behind the separator is behind the buffer, too. -/
theorem reduceToken_full (hsep : IsText sep) (hne : sep ≠ [] ∨ ts = [])
    (hts : ∀ t ∈ ts, IsListToken sep t) (h : ListHeld sep ts s) (hcur : cur ≠ [])
    (hnew : ¬ ∃ t ∈ ts, sameCase t cur = true)
    (hroom : (held sep (ts ++ [cur])).length = COMMAND_MAXARGLEN + 1) :
    (reduceToken sep s cur).1.inside = false := by
  rw [reduceToken_eq hsep hne hts h hcur, if_neg (fun hany => hnew (List.any_eq_true.mp hany))]
  obtain ⟨⟨r, hmem⟩, hsize, -, -⟩ := h
  rw [held_concat, List.length_append, List.length_append, List.length_singleton] at hroom
  have hlen : (strlcat s.1 cur COMMAND_MAXARGLEN).2 = COMMAND_MAXARGLEN := by
    rw [strlcat_len, hmem, strAt_append (isText_held hsep hne hts)]
    omega
  dsimp only
  rw [Checked.store_outside]
  rw [Checked.length_store, length_strlcat, hsize, hlen]
  exact .inr (Int.le_refl _)

/-! ### The whole list -/

/-- The bytes of a piece are bytes of the list, and no separators. -/
theorem mem_of_mem_listTokens {list t : Bytes} {c : UInt8} (ht : t ∈ listTokens list sep)
    (hc : c ∈ t) : c ∈ list ∧ c ∉ sep := by
  induction list generalizing t with
  | nil =>
    rw [List.mem_singleton.mp ht] at hc
    cases hc
  | cons d l ih =>
    unfold listTokens at ht ih
    rw [List.splitOnP_cons_eq_if_modifyHead] at ht
    have hbehind : ∀ p ∈ l.splitOnP (· ∈ sep), c ∈ p → c ∈ d :: l ∧ c ∉ sep :=
      fun p hp hc => ⟨List.mem_cons_of_mem d (ih hp hc).1, (ih hp hc).2⟩
    split at ht
    · rcases List.mem_cons.mp ht with rfl | ht
      · cases hc
      · exact hbehind t ht hc
    · rename_i hd
      cases hl : l.splitOnP (· ∈ sep) with
      | nil => exact absurd hl (List.splitOnP_ne_nil _ _)
      | cons p ps =>
        rw [hl] at hbehind
        rw [hl, List.modifyHead_cons] at ht
        rcases List.mem_cons.mp ht with rfl | ht
        · rcases List.mem_cons.mp hc with rfl | hc
          · exact ⟨List.mem_cons_self, by simpa using hd⟩
          · exact hbehind p List.mem_cons_self hc
        · exact hbehind t (List.mem_cons_of_mem p ht) hc

/-- A piece of the list is a token unless it is empty. -/
theorem isListToken_of_mem {list t : Bytes} (hlist : IsText list) (ht : t ∈ listTokens list sep)
    (hne : t ≠ []) : IsListToken sep t :=
  ⟨hne, fun hzero => hlist (mem_of_mem_listTokens ht hzero).1,
    fun _ hc => (mem_of_mem_listTokens ht hc).2⟩

/-- The pieces have one byte more than the list, with a separator behind each. -/
theorem length_held_listTokens (list sep : Bytes) :
    (held sep (listTokens list sep)).length = list.length + 1 := by
  induction list with
  | nil => simp [listTokens, held]
  | cons d l ih =>
    unfold listTokens at ih ⊢
    rw [List.splitOnP_cons_eq_if_modifyHead]
    cases hl : l.splitOnP (· ∈ sep) with
    | nil => exact absurd hl (List.splitOnP_ne_nil _ _)
    | cons p ps =>
      rw [hl] at ih
      split <;> simp [held] at ih ⊢ <;> omega

theorem length_held_of_sublist {us : List Bytes} (h : ts.Sublist us) :
    (held sep ts).length ≤ (held sep us).length :=
  (h.flatMap _).length_le

/-- What is left out makes it shorter. -/
theorem length_held_lt {us : List Bytes} (h : ts.Sublist us) (hne : ts ≠ us) :
    (held sep ts).length < (held sep us).length := by
  induction h with
  | slnil => exact absurd rfl hne
  | cons t h ih =>
    have hle := @length_held_of_sublist sep _ _ h
    rw [length_held_cons]
    omega
  | cons_cons t h ih =>
    have hlt := ih fun heq => hne (congrArg _ heq)
    rw [length_held_cons, length_held_cons]
    omega

/-- The outer loop, from a buffer that holds `ts`. -/
theorem foldl_reduceToken {r : List Bytes} {seen : Bytes → Bool} (hsep : IsText sep)
    (hne : sep ≠ [] ∨ ts.length + r.length ≤ 1) (hts : ∀ t ∈ ts, IsListToken sep t)
    (hr : ∀ t ∈ r, t ≠ [] → IsListToken sep t) (h : ListHeld sep ts s)
    (hseen : ∀ k, seen k = true ↔ ∃ t ∈ ts, t.map toLower = k)
    (hroom : (held sep (ts ++ Firsts.firsts (List.map toLower) seen (r.filter (· ≠ [])))).length ≤
      COMMAND_MAXARGLEN) :
    ListHeld sep (ts ++ Firsts.firsts (List.map toLower) seen (r.filter (· ≠ [])))
      (r.foldl (reduceToken sep) s) := by
  induction r generalizing ts s seen with
  | nil => simpa [Firsts.firsts] using h
  | cons cur r ih =>
    rw [List.length_cons] at hne
    rw [List.forall_mem_cons] at hr
    rw [List.foldl_cons]
    by_cases hcur : cur = []
    · have hskip : reduceToken sep s cur = s := if_pos hcur
      rw [List.filter_cons_of_neg (by simpa using hcur)] at hroom ⊢
      rw [hskip]
      exact ih (hne.imp_right fun _ => by omega) hts hr.2 h hseen hroom
    · have hfirst : sep ≠ [] ∨ ts = [] :=
        hne.imp_right fun _ => List.length_eq_zero_iff.mp (by omega)
      rw [List.filter_cons_of_pos (by simpa using hcur), Firsts.firsts_cons] at hroom ⊢
      by_cases hknown : seen (cur.map toLower) = true
      · rw [if_pos hknown] at hroom ⊢
        obtain ⟨t, ht, hsame⟩ := (hseen _).mp hknown
        rw [reduceToken_known hsep hfirst hts h hcur ⟨t, ht, sameCase_iff.mpr hsame⟩]
        exact ih (hne.imp_right fun _ => by omega) hts hr.2 h hseen hroom
      · rw [if_neg hknown, List.append_cons] at hroom ⊢
        have hnew : ¬ ∃ t ∈ ts, sameCase t cur = true := by
          rintro ⟨t, ht, hsame⟩
          exact hknown ((hseen _).mpr ⟨t, ht, sameCase_iff.mp hsame⟩)
        have hle := @length_held_of_sublist sep _ _ (List.sublist_append_left (ts ++ [cur])
          (Firsts.firsts (List.map toLower) (Function.update seen (cur.map toLower) true)
            (r.filter (· ≠ []))))
        refine ih ?_ ?_ hr.2 (reduceToken_new hsep hfirst hts h hcur hnew (hle.trans hroom))
          ?_ hroom
        · rw [List.length_append, List.length_singleton]
          exact hne.imp_right fun _ => by omega
        · intro t ht
          rcases List.mem_append.mp ht with ht | ht
          · exact hts t ht
          · rw [List.mem_singleton.mp ht]
            exact hr.1 hcur
        · intro k
          rw [Function.update_apply]
          by_cases hk : k = cur.map toLower
          · simp [hk]
          · simp [hk, hseen, Ne.symm hk]

/-! ### The last separator -/

/-- With the separators between the tokens, one is left at the end. -/
theorem held_eq_joined (hne : sep ≠ [] ∨ ts.length ≤ 1) (hts : ts ≠ []) :
    held sep ts = (sep.take 1).intercalate ts ++ [sep.headD 0] := by
  induction ts with
  | nil => exact absurd rfl hts
  | cons t ts ih =>
    cases ts with
    | nil => simp [held]
    | cons u us =>
      have hsep : sep ≠ [] := hne.resolve_right (by simp)
      have htake : sep.take 1 = [sep.headD 0] := by
        cases sep with
        | nil => exact absurd rfl hsep
        | cons c sep => rfl
      rw [held_cons, ih (.inl hsep) (List.cons_ne_nil u us), List.intercalate_cons_cons, htake]
      simp only [List.append_assoc, List.cons_append, List.nil_append]

theorem isText_intercalate_held (hsep : IsText sep) (hts : ∀ t ∈ ts, IsListToken sep t)
    (hne : sep ≠ [] ∨ ts.length ≤ 1) : IsText ((sep.take 1).intercalate ts) := by
  by_cases hnil : ts = []
  · rw [hnil]
    exact List.not_mem_nil
  · by_cases hempty : sep = []
    · obtain ⟨t, rfl⟩ := List.length_eq_one_iff.mp
        (le_antisymm (hne.resolve_left (not_not_intro hempty)) (List.length_pos_iff.mpr hnil))
      rw [List.intercalate_singleton]
      exact (hts t List.mem_cons_self).text
    · have htext := isText_held hsep (.inl hempty) hts
      rw [held_eq_joined hne hnil] at htext
      exact (isText_append.mp htext).1

/-- `buf[len - 1] = 0`. -/
theorem store_last (hsep : IsText sep) (hne : sep ≠ [] ∨ ts.length ≤ 1)
    (hts : ∀ t ∈ ts, IsListToken sep t) (h : ListHeld sep ts s) (hnil : ts ≠ []) :
    (s.1.store (s.2 - 1 : ℤ) 0).inside = true ∧
      strAt (s.1.store (s.2 - 1 : ℤ) 0).mem = (sep.take 1).intercalate ts := by
  obtain ⟨⟨mem, inside⟩, len⟩ := s
  obtain ⟨⟨r, hmem⟩, -, hinside, hlen⟩ := h
  have hjoined := held_eq_joined hne hnil
  have hstore := @Checked.store_append _ true 0 ((sep.take 1).intercalate ts) (sep.headD 0) (0 :: r)
  dsimp only at hmem hinside hlen ⊢
  rw [hjoined, List.append_assoc, List.singleton_append] at hmem
  rw [hjoined, List.length_append, List.length_singleton] at hlen
  have hplace : (len - 1 : ℤ) = ((sep.take 1).intercalate ts).length := by omega
  rw [hmem, hinside, hplace, hstore]
  exact ⟨rfl, strAt_append (isText_intercalate_held hsep hts hne) _⟩

/-- Without a token there is no last separator, but the byte before the buffer is cleared. -/
theorem store_last_nil (h : ListHeld sep [] s) : (s.1.store (s.2 - 1 : ℤ) 0).inside = false := by
  have hlen : s.2 = 0 := h.len
  rw [Checked.store_outside (.inl (by omega))]

/-! ### The lists that are reduced -/

theorem held_start {buf : Bytes} (hbuf : buf.length = COMMAND_MAXARGLEN + 1) :
    ListHeld sep [] ((Checked.mk buf true).store 0 0, 0) := by
  cases buf with
  | nil => simp at hbuf
  | cons d r =>
    have hstore : (Checked.mk (d :: r) true).store 0 0 = ⟨0 :: r, true⟩ :=
      @Checked.store_append _ true 0 [] d r
    rw [hstore]
    exact ⟨⟨r, rfl⟩, hbuf, rfl, rfl⟩

theorem mem_distinctTokens {list t : Bytes} (ht : t ∈ distinctTokens list sep) :
    t ∈ listTokens list sep ∧ t ≠ [] := by
  obtain ⟨hmem, hne⟩ := List.mem_filter.mp (Firsts.mem_firsts ht).1
  exact ⟨hmem, of_decide_eq_true hne⟩

theorem distinctTokens_eq_nil_iff (list sep : Bytes) :
    distinctTokens list sep = [] ↔ ∀ t ∈ listTokens list sep, t = [] := by
  rw [distinctTokens, Firsts.firsts_eq_nil_iff]
  simp

theorem distinctTokens_eq_iff (list sep : Bytes) :
    distinctTokens list sep = listTokens list sep ↔
      (∀ t ∈ listTokens list sep, t ≠ []) ∧
        (listTokens list sep).Pairwise fun t u => sameCase t u = false := by
  have hsame : (fun t u : Bytes => t.map toLower ≠ u.map toLower) =
      fun t u => sameCase t u = false := by
    funext t u
    rw [← Bool.not_eq_true, sameCase_iff]
  have hfilter : (listTokens list sep).filter (· ≠ []) = listTokens list sep ↔
      ∀ t ∈ listTokens list sep, t ≠ [] := by
    rw [List.filter_eq_self]
    simp only [decide_eq_true_eq]
  unfold distinctTokens
  constructor
  · intro heq
    have hall : (listTokens list sep).filter (· ≠ []) = listTokens list sep := by
      refine List.filter_sublist.eq_of_length_le ?_
      have hle := (@Firsts.firsts_sublist _ _ _ (List.map toLower) (fun _ => false)
        ((listTokens list sep).filter (· ≠ []))).length_le
      rwa [heq] at hle
    rw [hall, Firsts.firsts_eq_self_iff, hsame] at heq
    exact ⟨hfilter.mp hall, heq.2⟩
  · rintro ⟨hall, hpair⟩
    rw [hfilter.mpr hall, Firsts.firsts_eq_self_iff, hsame]
    exact ⟨fun _ _ => rfl, hpair⟩

variable {buf list : Bytes}

/-- Without separators there is one token. -/
theorem sep_or_length_listTokens (list sep : Bytes) :
    sep ≠ [] ∨ (listTokens list sep).length ≤ 1 := by
  by_cases hsep : sep = []
  · right
    have hheld := length_held_listTokens list sep
    have hone : ∀ l : Bytes, l.splitOnP (· ∈ ([] : Bytes)) = [l] := by
      intro l
      induction l with
      | nil => rfl
      | cons d l ih =>
        rw [List.splitOnP_cons_eq_if_modifyHead, ih]
        simp
    rw [hsep, listTokens, hone]
    exact le_rfl
  · exact .inl hsep

/-- The buffer holds what the list is to be reduced to if that is short enough. -/
theorem held_distinctTokens (hbuf : buf.length = COMMAND_MAXARGLEN + 1) (hlist : IsText list)
    (hsep : IsText sep) (hroom : (held sep (distinctTokens list sep)).length ≤ COMMAND_MAXARGLEN) :
    ListHeld sep (distinctTokens list sep)
      ((listTokens list sep).foldl (reduceToken sep) ((Checked.mk buf true).store 0 0, 0)) := by
  have hne : sep ≠ [] ∨ ([] : List Bytes).length + (listTokens list sep).length ≤ 1 := by
    rw [List.length_nil, Nat.zero_add]
    exact sep_or_length_listTokens list sep
  exact foldl_reduceToken hsep hne (fun t ht => absurd ht List.not_mem_nil)
    (fun t ht => isListToken_of_mem hlist ht) (held_start hbuf) (by simp) hroom

/-- A list that fills the buffer, of tokens that are all different. -/
theorem outside_of_full (hbuf : buf.length = COMMAND_MAXARGLEN + 1) (hlist : IsText list)
    (hsep : IsText sep) (hlen : list.length = COMMAND_MAXARGLEN)
    (hall : ∀ t ∈ listTokens list sep, t ≠ [])
    (hpair : (listTokens list sep).Pairwise fun t u => sameCase t u = false) :
    (reduceStringList buf list sep).inside = false := by
  have hheld := length_held_listTokens list sep
  have hmem := fun t (ht : t ∈ listTokens list sep) => isListToken_of_mem hlist ht (hall t ht)
  have hone := sep_or_length_listTokens list sep
  unfold reduceStringList
  obtain ⟨us, cur, heq⟩ : ∃ us cur, listTokens list sep = us ++ [cur] :=
    ⟨_, _, (List.dropLast_append_getLast (List.splitOnP_ne_nil _ list)).symm⟩
  rw [heq] at hheld hmem hone hall hpair ⊢
  rw [List.length_append, List.length_singleton] at hone
  have hus : ∀ t ∈ us, IsListToken sep t := fun t ht => hmem t (List.mem_append_left _ ht)
  obtain ⟨hpairs, -, hlast⟩ := List.pairwise_append.mp hpair
  have hfilter : us.filter (· ≠ []) = us := by
    rw [List.filter_eq_self]
    simpa using fun t ht => (hus t ht).ne_nil
  have hfirsts : Firsts.firsts (List.map toLower) (fun _ => false) us = us := by
    refine Firsts.firsts_eq_self_iff.mpr ⟨fun _ _ => rfl, hpairs.imp fun hsame heq => ?_⟩
    rw [sameCase_iff.mpr heq] at hsame
    cases hsame
  have hshort := @length_held_of_sublist sep _ _ (List.sublist_append_left us [cur])
  have hrun := @foldl_reduceToken sep [] _ us (fun _ => false) hsep
    (hone.imp_right fun h => by rw [List.length_nil]; omega)
    (fun t ht => absurd ht List.not_mem_nil) (fun t ht _ => hus t ht) (held_start hbuf) (by simp)
  rw [hfilter, hfirsts, List.nil_append] at hrun
  have hroom : (held sep us).length ≤ COMMAND_MAXARGLEN := by
    rw [held_concat, List.length_append, List.length_singleton] at hheld
    rw [List.length_append] at hheld
    omega
  rw [List.foldl_append, List.foldl_cons, List.foldl_nil]
  refine Checked.inside_store_of_false ?_
  refine reduceToken_full hsep (hone.imp_right fun h => List.length_eq_zero_iff.mp (by omega)) hus
    (hrun hroom) (hall cur (by simp)) ?_ (by omega)
  rintro ⟨t, ht, hsame⟩
  rw [hlast t ht cur List.mem_cons_self] at hsame
  cases hsame

/-- It is reduced as it should be unless it has no token, or is as long as the buffer and would stay
as it is. -/
theorem reduces_iff (hbuf : buf.length = COMMAND_MAXARGLEN + 1) (hlist : IsText list)
    (hlen : list.length ≤ COMMAND_MAXARGLEN) (hsep : IsText sep) :
    Reduces buf list sep ↔
      (∃ t ∈ listTokens list sep, t ≠ []) ∧
        (list.length = COMMAND_MAXARGLEN →
          (∃ t ∈ listTokens list sep, t = []) ∨
            ¬ (listTokens list sep).Pairwise fun t u => sameCase t u = false) := by
  have hfilter : ((listTokens list sep).filter (· ≠ [])).Sublist (listTokens list sep) :=
    List.filter_sublist
  have hsub : (distinctTokens list sep).Sublist (listTokens list sep) :=
    Firsts.firsts_sublist.trans hfilter
  have hheld := length_held_listTokens list sep
  have hsame := distinctTokens_eq_iff list sep
  by_cases hfull : list.length = COMMAND_MAXARGLEN ∧ distinctTokens list sep = listTokens list sep
  · obtain ⟨hmax, heq⟩ := hfull
    obtain ⟨hall, hpair⟩ := hsame.mp heq
    refine iff_of_false (fun h => ?_) ?_
    · have hinside := h.1
      rw [outside_of_full hbuf hlist hsep hmax hall hpair] at hinside
      cases hinside
    · rintro ⟨-, h⟩
      rcases h hmax with ⟨t, ht, hnil⟩ | h
      · exact hall t ht hnil
      · exact h hpair
  · have hroom : (held sep (distinctTokens list sep)).length ≤ COMMAND_MAXARGLEN := by
      by_cases heq : distinctTokens list sep = listTokens list sep
      · have hless : list.length ≠ COMMAND_MAXARGLEN := fun hmax => hfull ⟨hmax, heq⟩
        rw [heq]
        omega
      · have hlt := @length_held_lt sep _ _ hsub heq
        omega
    have hrun := held_distinctTokens hbuf hlist hsep hroom
    have hrest : list.length = COMMAND_MAXARGLEN →
        (∃ t ∈ listTokens list sep, t = []) ∨
          ¬ (listTokens list sep).Pairwise fun t u => sameCase t u = false := by
      intro hmax
      by_contra hnot
      rw [not_or, not_not] at hnot
      exact hfull ⟨hmax, hsame.mpr ⟨fun t ht hnil => hnot.1 ⟨t, ht, hnil⟩, hnot.2⟩⟩
    by_cases hnil : distinctTokens list sep = []
    · refine iff_of_false (fun h => ?_) ?_
      · have hinside := h.1
        rw [hnil] at hrun
        rw [reduceStringList, store_last_nil hrun] at hinside
        cases hinside
      · rintro ⟨⟨t, ht, hne⟩, -⟩
        exact hne ((distinctTokens_eq_nil_iff list sep).mp hnil t ht)
    · obtain ⟨t, ht⟩ := List.exists_mem_of_ne_nil _ hnil
      refine iff_of_true ?_ ⟨⟨t, mem_distinctTokens ht⟩, hrest⟩
      exact store_last hsep ((sep_or_length_listTokens list sep).imp_right hsub.length_le.trans)
        (fun u hu => isListToken_of_mem hlist (mem_distinctTokens hu).1 (mem_distinctTokens hu).2)
        hrun hnil

theorem reduces_iff_targets :
    Reduces (List.replicate (COMMAND_MAXARGLEN + 1) 0) (bytes "fred,#ops,FRED,") (bytes ",") := by
  have htokens : listTokens (bytes "fred,#ops,FRED,") (bytes ",") =
      [bytes "fred", bytes "#ops", bytes "FRED", []] := rfl
  refine (reduces_iff List.length_replicate (by decide) (by decide) (by decide)).mpr ⟨?_, ?_⟩
  · exact ⟨bytes "fred", by simp [htokens], by decide⟩
  · intro _
    exact .inl ⟨[], by simp [htokens], rfl⟩

/-- A list of a single separator: the byte before the buffer is cleared. -/
theorem reduces_fails :
    ¬ ∀ buf list sep : Bytes, buf.length = COMMAND_MAXARGLEN + 1 → IsText list →
      list.length ≤ COMMAND_MAXARGLEN → IsText sep → Reduces buf list sep := by
  intro h
  have hbuf : (List.replicate (COMMAND_MAXARGLEN + 1) (0 : UInt8)).length = COMMAND_MAXARGLEN + 1 :=
    List.length_replicate
  have hlist : IsText (bytes ",") := by decide
  have hnil : distinctTokens (bytes ",") (bytes ",") = [] := rfl
  have hroom : (held (bytes ",") (distinctTokens (bytes ",") (bytes ","))).length ≤
      COMMAND_MAXARGLEN := by decide
  have hrun := held_distinctTokens hbuf hlist hlist hroom
  have hinside := (h _ _ _ hbuf hlist (by decide) hlist).1
  rw [hnil] at hrun
  rw [reduceStringList, store_last_nil hrun] at hinside
  cases hinside

end Ithildin
