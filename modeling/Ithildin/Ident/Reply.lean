import Ithildin.Hostmatch
import Mathlib.Tactic.Common

/-!
# Replies to ident requests

The part of `ident_socket_hook` of `ident.c` that reads a reply.

* `identAnswer`: what the reader makes of what it read;
* `identAnswer_iff`: it is the user that a reply of the right form names, cut at nine bytes; `OTHER`
  is compared with one byte too many, so that only `UNIX` counts.
-/

namespace Ithildin

namespace Ident

/-! ### The reply -/

/-- `IDENT_MAXLEN`. -/
def IDENT_MAXLEN : ℕ := 9

/-- `IDENT_BUFLEN`. -/
def IDENT_BUFLEN : ℕ := 512

def crlf : Bytes := [13, 10]

/-- `strchr(s, ':')`, and then past the colon and white space. -/
def afterColon (s : Bytes) : Option Bytes := (behindByte colon s).map (List.dropWhile isSpace)

/-- `!strncmp(s, word, strlen(word))`. -/
def startsWith (word s : Bytes) : Bool := word.isPrefixOf s

/-- The `do` loop that looks for the user in a reply. -/
def userid (buf : Bytes) : Bytes :=
  ((afterColon buf).bind fun reply =>
    if startsWith (bytes "USERID") reply then
      (afterColon reply).bind fun os =>
        -- six bytes of `"OTHER"` are compared, its NUL among them
        if startsWith (bytes "UNIX") os || os == bytes "OTHER" then afterColon os else none
    else none).getD []

/-- What is put into `irp->answer` for what was read. -/
def identAnswer (data : Bytes) : Bytes :=
  if data.length < 16 then []
  else if data.drop (data.length - 2) ≠ crlf then []
  else (userid (strAt (data.take (data.length - 2)))).take IDENT_MAXLEN

theorem behindByte_eq_some {b : UInt8} {s rest : Bytes} (h : behindByte b s = some rest) :
    ∃ front, s = front ++ b :: rest ∧ b ∉ front := by
  induction s with
  | nil => cases h
  | cons c s ih =>
    rw [behindByte] at h
    split_ifs at h with hc
    · obtain rfl := Option.some.inj h
      exact ⟨[], congrArg (· :: s) hc, List.not_mem_nil⟩
    · obtain ⟨front, rfl, hfront⟩ := ih h
      exact ⟨c :: front, rfl, List.not_mem_cons_of_ne_of_not_mem (Ne.symm hc) hfront⟩

/-- White space, and what does not begin with it. -/
theorem dropWhile_isSpace_eq {s t : Bytes} : s.dropWhile isSpace = t ↔
    ∃ white, s = white ++ t ∧ (∀ c ∈ white, isSpace c = true) ∧
      ∀ c, t.head? = some c → isSpace c = false := by
  constructor
  · rintro rfl
    refine ⟨s.takeWhile isSpace, List.takeWhile_append_dropWhile.symm,
      fun c hc => List.mem_takeWhile_imp hc, fun c hc => ?_⟩
    have hhead := List.head?_dropWhile_not isSpace s
    rw [hc] at hhead
    exact hhead
  · rintro ⟨white, rfl, hwhite, hhead⟩
    rw [List.dropWhile_append_of_pos hwhite]
    cases t with
    | nil => rfl
    | cons c t => exact List.dropWhile_cons_of_neg (by rw [hhead c rfl]; exact Bool.false_ne_true)

theorem afterColon_eq_some {s t : Bytes} : afterColon s = some t ↔
    ∃ front white, s = front ++ colon :: (white ++ t) ∧ colon ∉ front ∧
      (∀ c ∈ white, isSpace c = true) ∧ ∀ c, t.head? = some c → isSpace c = false := by
  rw [afterColon, Option.map_eq_some_iff]
  constructor
  · rintro ⟨rest, hrest, hdrop⟩
    obtain ⟨front, rfl, hfront⟩ := behindByte_eq_some hrest
    obtain ⟨white, rfl, hwhite, hhead⟩ := dropWhile_isSpace_eq.1 hdrop
    exact ⟨front, white, rfl, hfront, hwhite, hhead⟩
  · rintro ⟨front, white, rfl, hfront, hwhite, hhead⟩
    exact ⟨_, behindByte_append hfront _, dropWhile_isSpace_eq.2 ⟨white, rfl, hwhite, hhead⟩⟩

theorem startsWith_iff {word s : Bytes} :
    startsWith word s = true ↔ ∃ rest, s = word ++ rest := by
  rw [startsWith, List.isPrefixOf_iff_prefix]
  exact ⟨fun ⟨rest, h⟩ => ⟨rest, h.symm⟩, fun ⟨rest, h⟩ => ⟨rest, h.symm⟩⟩

/-- A reply that names a user: two ports, the type of the reply, the system and the user, with a
colon before each but the first, and white space behind these. -/
def Names (reply user : Bytes) : Prop :=
  ∃ ports kind system white white' white'',
    reply = ports ++ colon :: (white ++ (bytes "USERID" ++ kind ++
      colon :: (white' ++ (bytes "UNIX" ++ system ++ colon :: (white'' ++ user))))) ∧
    colon ∉ ports ∧ colon ∉ kind ∧ colon ∉ system ∧
    (∀ c ∈ white ++ white' ++ white'', isSpace c = true) ∧
    ∀ c, user.head? = some c → isSpace c = false

/-- A word in front, up to a colon. -/
theorem afterColon_word {word s t : Bytes} (hword : colon ∉ word) :
    afterColon (word ++ s) = some t ↔ ∃ front white, s = front ++ colon :: (white ++ t) ∧
      colon ∉ front ∧ (∀ c ∈ white, isSpace c = true) ∧
        ∀ c, t.head? = some c → isSpace c = false := by
  induction word with
  | nil => exact afterColon_eq_some
  | cons c word ih =>
    rw [← ih (List.not_mem_of_not_mem_cons hword), List.cons_append, afterColon, behindByte,
      if_neg (List.ne_of_not_mem_cons hword).symm, afterColon]

theorem userid_eq_iff {buf user : Bytes} (huser : user ≠ []) :
    userid buf = user ↔ Names buf user := by
  have hother : afterColon (bytes "OTHER") = none := rfl
  have hUnix : colon ∉ bytes "UNIX" := by decide
  have hUserid : colon ∉ bytes "USERID" := by decide
  rw [userid, Option.getD_eq_iff, or_iff_left (fun h => huser h.2.symm), Option.bind_eq_some_iff]
  constructor
  · rintro ⟨reply, hreply, h⟩
    split_ifs at h with hkind
    obtain ⟨rest, rfl⟩ := startsWith_iff.1 hkind
    obtain ⟨os, hos, hname⟩ := Option.bind_eq_some_iff.1 h
    split_ifs at hname with hsystem
    rcases (Bool.or_eq_true _ _).mp hsystem with hsystem | hsystem
    · obtain ⟨rest', rfl⟩ := startsWith_iff.1 hsystem
      obtain ⟨ports, white, rfl, hports, hwhite, -⟩ := afterColon_eq_some.1 hreply
      obtain ⟨kind, white', rfl, hkind', hwhite', -⟩ := (afterColon_word hUserid).1 hos
      obtain ⟨system, white'', rfl, hsystem', hwhite'', hhead⟩ := (afterColon_word hUnix).1 hname
      refine ⟨ports, kind, system, white, white', white'', ?_, hports, hkind', hsystem', ?_, hhead⟩
      · simp only [List.append_assoc]
      · intro c hc
        rcases List.mem_append.1 hc with hc | hc
        · rcases List.mem_append.1 hc with hc | hc
          · exact hwhite c hc
          · exact hwhite' c hc
        · exact hwhite'' c hc
    · rw [eq_of_beq hsystem, hother] at hname
      cases hname
  · rintro ⟨ports, kind, system, white, white', white'', rfl, hports, hkind, hsystem, hwhite, hhead⟩
    have hw : ∀ c ∈ white, isSpace c = true := fun c hc =>
      hwhite c (List.mem_append_left _ (List.mem_append_left _ hc))
    have hw' : ∀ c ∈ white', isSpace c = true := fun c hc =>
      hwhite c (List.mem_append_left _ (List.mem_append_right _ hc))
    have hw'' : ∀ c ∈ white'', isSpace c = true := fun c hc =>
      hwhite c (List.mem_append_right _ hc)
    refine ⟨bytes "USERID" ++ (kind ++ colon :: (white' ++ (bytes "UNIX" ++ (system ++
      colon :: (white'' ++ user))))), ?_, ?_⟩
    · refine afterColon_eq_some.2 ⟨ports, white, by simp only [List.append_assoc], hports, hw, ?_⟩
      intro c hc
      obtain rfl := Option.some.inj hc
      rfl
    · rw [if_pos (startsWith_iff.2 ⟨_, rfl⟩), Option.bind_eq_some_iff]
      refine ⟨bytes "UNIX" ++ (system ++ colon :: (white'' ++ user)), ?_, ?_⟩
      · refine (afterColon_word hUserid).2 ⟨kind, white', rfl, hkind, hw', ?_⟩
        intro c hc
        obtain rfl := Option.some.inj hc
        rfl
      · rw [if_pos (by rw [startsWith_iff.2 ⟨_, rfl⟩, Bool.true_or])]
        exact (afterColon_word hUnix).2 ⟨system, white'', rfl, hsystem, hw'', hhead⟩

/-- There is an answer just for a reply of at least 16 bytes with a CR LF at its end that names a
user of a UNIX system; it is the first nine bytes of the name. -/
theorem identAnswer_iff {data answer : Bytes} (hanswer : answer ≠ []) :
    identAnswer data = answer ↔ 16 ≤ data.length ∧ ∃ text user,
      data = text ++ crlf ∧ Names (strAt text) user ∧ answer = user.take IDENT_MAXLEN := by
  rw [identAnswer]
  by_cases hshort : data.length < 16
  · rw [if_pos hshort]
    exact iff_of_false hanswer.symm fun h => absurd h.1 (Nat.not_le.2 hshort)
  rw [if_neg hshort, and_iff_right (Nat.le_of_not_lt hshort)]
  have htake : ∀ text : Bytes, (text ++ crlf).length - 2 = text.length := by
    intro text
    rw [List.length_append]
    rfl
  by_cases hend : data.drop (data.length - 2) = crlf
  · rw [if_neg (not_not.2 hend)]
    have hdata : data.take (data.length - 2) ++ crlf = data := by
      rw [← hend, List.take_append_drop]
    constructor
    · intro h
      refine ⟨_, _, hdata.symm, (userid_eq_iff ?_).1 rfl, h.symm⟩
      intro hnil
      rw [hnil, List.take_nil] at h
      exact hanswer h.symm
    · rintro ⟨text, user, rfl, hnames, rfl⟩
      have huser : user ≠ [] := by
        rintro rfl
        exact hanswer List.take_nil
      rw [htake, List.take_left, (userid_eq_iff huser).2 hnames]
  · rw [if_pos hend]
    refine iff_of_false hanswer.symm ?_
    rintro ⟨text, user, rfl, -⟩
    rw [htake, List.drop_left] at hend
    exact hend rfl

theorem identAnswer_iff_stjohns : ∃ text user,
    bytes "6193, 23 : USERID : UNIX : stjohns\r\n" = text ++ crlf ∧ Names (strAt text) user ∧
      bytes "stjohns" = user.take IDENT_MAXLEN :=
  ((@identAnswer_iff (bytes "6193, 23 : USERID : UNIX : stjohns\r\n") (bytes "stjohns")
    (by decide)).1 (by decide)).2

end Ident

end Ithildin
