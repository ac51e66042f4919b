import Ithildin.Channel.Mirror
import Ithildin.Channel.ModeLine
import Mathlib.Data.List.Induction

/-!
# A mode string made again at another server

* `ModeLoop.accepted`: the change that one byte of a mode string comes to;
* `modeChar_cases`: what one byte does to the loop;
* `Shape`: the result of our loop as far as it goes to other servers;
* `Tracks`: the loop of the other server has come as far as ours.
-/

namespace Ithildin

open Tokens

variable {t : ModeTable} {cl second : Clients} {cli : Option Actor}

/-! ### One byte -/

/-- The next argument is too long for `rbuf`. -/
def ModeLoop.crowded (st : ModeLoop) : Bool :=
  st.args.head?.any fun arg => RBUF_SIZE - st.rbuf.length ≤ arg.length

/-- The byte is a mode that a handler is called for. -/
def ModeLoop.Reaches (cli : Option Actor) (st : ModeLoop) (c : UInt8) : Prop :=
  st.skip = false ∧ ¬ (cli.isSome ∧ MAXMODES ≤ st.mset) ∧ c ≠ plusSign ∧ c ≠ minusSign ∧
    st.crowded = false

instance (st : ModeLoop) (c : UInt8) : Decidable (st.Reaches cli c) :=
  inferInstanceAs (Decidable (_ ∧ _))

/-- The change that is accepted, if one is. -/
def ModeLoop.accepted (t : ModeTable) (cl : Clients) (cli : Option Actor) (st : ModeLoop)
    (c : UInt8) : Option Handled :=
  let h := changeMode t cl cli st.chan c st.plus st.args.head?
  if st.Reaches cli c ∧ h.res = .ok then some h else none

theorem modeChar_of_reaches {st : ModeLoop} {c : UInt8} (h : st.Reaches cli c) :
    modeChar t cl cli st c =
      st.after c (changeMode t cl cli st.chan c st.plus st.args.head?) := by
  obtain ⟨hskip, hmax, hplus, hminus, hcrowded⟩ := h
  rw [modeChar, if_neg (by simp [hskip]), if_neg hmax, if_neg hplus, if_neg hminus]
  exact if_neg (by simpa [ModeLoop.crowded] using hcrowded)

theorem ModeLoop.accepted_eq_some {st : ModeLoop} {c : UInt8} {h : Handled} :
    st.accepted t cl cli c = some h ↔ st.Reaches cli c ∧
      changeMode t cl cli st.chan c st.plus st.args.head? = h ∧ h.res = .ok := by
  rw [accepted]
  split
  · rename_i hacc
    constructor
    · rintro heq
      obtain rfl := Option.some.inj heq
      exact ⟨hacc.1, rfl, hacc.2⟩
    · rintro ⟨-, rfl, -⟩
      rfl
  · rename_i hacc
    constructor
    · rintro ⟨⟩
    · rintro ⟨hreach, rfl, hok⟩
      exact absurd ⟨hreach, hok⟩ hacc

/-- The byte `'+'` or `'-'`. -/
def signByte (plus : Bool) : UInt8 := if plus then plusSign else minusSign

/-- What one byte does: nothing that is passed on, except that an argument may be gone; or the sign
changes; or a change is accepted. -/
theorem modeChar_cases (t : ModeTable) (cl : Clients) (cli : Option Actor) (st : ModeLoop)
    (c : UInt8) :
    (∃ args skip, (args = st.args ∨ args = st.args.tail) ∧ st.accepted t cl cli c = none ∧
        modeChar t cl cli st c = { st with args := args, skip := skip }) ∨
      (st.accepted t cl cli c = none ∧ modeChar t cl cli st c =
        { st with
          plus := !st.plus
          result := putSign st.result (signByte !st.plus) (signByte st.plus) }) ∨
      ∃ h, st.accepted t cl cli c = some h ∧ modeChar t cl cli st c = st.after c h := by
  by_cases hreach : st.Reaches cli c
  · rw [modeChar_of_reaches hreach]
    by_cases hok : (changeMode t cl cli st.chan c st.plus st.args.head?).res = .ok
    · exact .inr (.inr ⟨_, ModeLoop.accepted_eq_some.mpr ⟨hreach, rfl, hok⟩, rfl⟩)
    · have hnone : st.accepted t cl cli c = none := by
        rw [ModeLoop.accepted, if_neg fun h => hok h.2]
      refine .inl ⟨(st.after c (changeMode t cl cli st.chan c st.plus st.args.head?)).args,
        st.skip, ?_, hnone, ?_⟩
      · simp only [ModeLoop.after]
        split
        · exact .inr rfl
        · exact .inl rfl
      · simp only [ModeLoop.after, changeMode_chan hok, if_neg hok]
        congr
        split <;> rfl
  · have hnone : st.accepted t cl cli c = none := by
      rw [ModeLoop.accepted, if_neg fun h => hreach h.1]
    have hquiet : ∀ st' : ModeLoop, st' = { st with skip := st'.skip } →
        ∃ args skip, (args = st.args ∨ args = st.args.tail) ∧ st.accepted t cl cli c = none ∧
          st' = { st with args := args, skip := skip } :=
      fun st' hst' => ⟨st.args, st'.skip, .inl rfl, hnone, hst'⟩
    unfold modeChar
    by_cases hskip : st.skip
    · rw [if_pos hskip]
      exact .inl (hquiet _ rfl)
    rw [if_neg hskip]
    by_cases hmax : cli.isSome ∧ MAXMODES ≤ st.mset
    · rw [if_pos hmax]
      exact .inl (hquiet _ rfl)
    rw [if_neg hmax]
    by_cases hplus : c = plusSign
    · rw [if_pos hplus]
      by_cases hp : st.plus
      · rw [if_pos hp]
        exact .inl (hquiet _ rfl)
      · rw [if_neg hp]
        refine .inr (.inl ⟨hnone, ?_⟩)
        simp [signByte, hp]
    rw [if_neg hplus]
    by_cases hminus : c = minusSign
    · rw [if_pos hminus]
      by_cases hp : st.plus
      · rw [if_pos hp]
        refine .inr (.inl ⟨hnone, ?_⟩)
        simp [signByte, hp]
      · rw [if_neg hp]
        exact .inl (hquiet _ rfl)
    rw [if_neg hminus]
    by_cases hcrowded : st.crowded
    · have hcond := hcrowded
      unfold ModeLoop.crowded at hcond
      rw [if_pos hcond]
      exact .inl (hquiet _ rfl)
    · exact absurd ⟨by simpa using hskip, hmax, hplus, hminus, by simpa using hcrowded⟩ hreach

/-- What a loop that has ended comes to. -/
def ModeLoop.change (st : ModeLoop) : ModeChange :=
  ⟨st.chan, if 2 ≤ st.result.length then some (trimSign st.result, st.rbuf) else none⟩

theorem changeModes_of_fits {chan : Chan} {modes : Bytes} {args : List Bytes}
    (hrbuf : (modes.foldl (modeChar t cl cli) (.start chan args)).rbuf.length < RBUF_SIZE)
    (hresult : (modes.foldl (modeChar t cl cli) (.start chan args)).result.length < 64) :
    changeModes t cl cli chan modes args =
      some (modes.foldl (modeChar t cl cli) (.start chan args)).change :=
  if_pos ⟨hrbuf, hresult⟩

/-! ### The result of our loop -/

/-- One byte of a mode string: the sign in force, and the modes that have been set. -/
def scanStep (p : Bool × (UInt8 → Bool)) (c : UInt8) : Bool × (UInt8 → Bool) :=
  if c = plusSign then (true, p.2)
  else if c = minusSign then (false, p.2)
  else (p.1, fun m => p.2 m || (p.1 && m == c))

/-- The sign that a mode string ends under, and the modes it sets. -/
def scanModes (modes : Bytes) : Bool × (UInt8 → Bool) :=
  modes.foldl scanStep (true, fun _ => false)

/-- The modes with keys that a mode string sets. -/
def KeySet (t : ModeTable) (modes : Bytes) (m : UInt8) : Prop :=
  t.kind m = some .key ∧ (scanModes modes).2 m = true

theorem scanModes_sign (modes : Bytes) (p : Bool) :
    scanModes (modes ++ [signByte p]) = (p, (scanModes modes).2) := by
  rw [scanModes, List.foldl_append]
  cases p <;> rfl

theorem scanModes_mode (modes : Bytes) {c : UInt8} (hplus : c ≠ plusSign) (hminus : c ≠ minusSign) :
    scanModes (modes ++ [c]) = ((scanModes modes).1,
      fun m => (scanModes modes).2 m || ((scanModes modes).1 && m == c)) := by
  rw [scanModes, List.foldl_append, List.foldl_cons, List.foldl_nil, scanStep, if_neg hplus,
    if_neg hminus]
  rfl

theorem isModeChar_signByte (p : Bool) : isModeChar (signByte p) = false := by
  cases p <;> rfl

/-- The part of our result up to the last mode in it is `sent`; a sign may follow. -/
structure Shape (st : ModeLoop) (sent : Bytes) : Prop where
  result : (st.result = sent ∧ (scanModes sent).1 = st.plus ∧ sent ≠ [] ∧
      ∀ p, sent.getLast? ≠ some (signByte p)) ∨
    st.result = sent ++ [signByte st.plus]
  two_le : sent = [] ∨ 2 ≤ sent.length
  chars : ∀ c ∈ sent, c = plusSign ∨ c = minusSign ∨ isModeChar c = true
  length_le : sent.length ≤ 2 * st.mset

theorem Shape.start (chan : Chan) (args : List Bytes) : Shape (.start chan args) [] where
  result := .inr rfl
  two_le := .inl rfl
  chars := by simp
  length_le := Nat.zero_le _

theorem Shape.sign {st : ModeLoop} {sent : Bytes} (h : Shape st sent) :
    Shape { st with
      plus := !st.plus
      result := putSign st.result (signByte !st.plus) (signByte st.plus) } sent where
  result := by
    right
    rcases h.result with ⟨hresult, -, -, hlast⟩ | hresult
    · rw [putSign, hresult, if_neg (hlast st.plus)]
    · rw [putSign, hresult, if_pos (by simp)]
      simp
  two_le := h.two_le
  chars := h.chars
  length_le := h.length_le

theorem Shape.length_result {st : ModeLoop} {sent : Bytes} (h : Shape st sent) :
    st.result.length ≤ 2 * st.mset + 1 := by
  have hlen := h.length_le
  rcases h.result with ⟨hresult, -⟩ | hresult
  · rw [hresult]
    omega
  · rw [hresult, List.length_append, List.length_singleton]
    omega

theorem Shape.result_ne {st : ModeLoop} {sent : Bytes} (h : Shape st sent) : st.result ≠ [] := by
  rcases h.result with ⟨hresult, -, hne, -⟩ | hresult
  · rwa [hresult]
  · simp [hresult]

/-- Something is passed on when there is a mode in the result. -/
theorem Shape.two_le_result {st : ModeLoop} {sent : Bytes} (h : Shape st sent) :
    2 ≤ st.result.length ↔ sent ≠ [] := by
  have htwo := h.two_le
  rcases h.result with ⟨hresult, -, hne, -⟩ | hresult
  · rw [hresult]
    exact ⟨fun _ => hne, htwo.resolve_left⟩
  · rw [hresult, List.length_append, List.length_singleton]
    constructor
    · rintro h2 rfl
      simp at h2
    · intro hne
      have := htwo.resolve_left hne
      omega

theorem Shape.trimSign_result {st : ModeLoop} {sent : Bytes} (h : Shape st sent) :
    trimSign st.result = sent := by
  rcases h.result with ⟨hresult, -, -, hlast⟩ | hresult
  · rw [trimSign, hresult, if_neg]
    rintro (hplus | hminus)
    · exact hlast true hplus
    · exact hlast false hminus
  · rw [trimSign, hresult, if_pos]
    · simp
    · cases st.plus
      · exact .inr (by simp [signByte])
      · exact .inl (by simp [signByte])

/-- The bytes of a mode string do not end a word. -/
theorem plain_of_modeByte {c : UInt8} (h : c = plusSign ∨ c = minusSign ∨ isModeChar c = true) :
    isSpace c = false ∧ c ≠ 0 ∧ c ≠ colon := by
  have hall : ∀ n < 256, (UInt8.ofNat n = plusSign ∨ UInt8.ofNat n = minusSign ∨
      isModeChar (UInt8.ofNat n) = true) →
      isSpace (UInt8.ofNat n) = false ∧ UInt8.ofNat n ≠ 0 ∧ UInt8.ofNat n ≠ colon := by
    decide +kernel
  exact forall_byte (p := fun c => (c = plusSign ∨ c = minusSign ∨ isModeChar c = true) →
    isSpace c = false ∧ c ≠ 0 ∧ c ≠ colon) hall c h

/-- What is passed on is one word of the line. -/
theorem Shape.isWord {st : ModeLoop} {sent : Bytes} (h : Shape st sent) (hne : sent ≠ []) :
    IsWord sent :=
  isWord_of_forall hne fun c hc => plain_of_modeByte (h.chars c hc)

/-- The sign of our loop is the one that its result ends under. -/
theorem Shape.scan {st : ModeLoop} {sent : Bytes} (h : Shape st sent) :
    scanModes st.result = (st.plus, (scanModes sent).2) := by
  rcases h.result with ⟨hresult, hplus, -⟩ | hresult
  · rw [hresult, ← hplus]
  · rw [hresult, scanModes_sign]

theorem Shape.accept {st : ModeLoop} {sent : Bytes} (h : Shape st sent) {c : UInt8} {hd : Handled}
    (hok : hd.res = .ok) (hc : isModeChar c = true) :
    Shape (st.after c hd) (st.result ++ [c]) where
  result := by
    left
    obtain ⟨hplus, hminus⟩ := ne_sign_of_isModeChar hc
    refine ⟨by simp [ModeLoop.after, hok], ?_, by simp, ?_⟩
    · rw [scanModes_mode _ hplus hminus, h.scan]
      rfl
    · intro p hp
      have hcp : c = signByte p := by simpa using hp
      rw [hcp, isModeChar_signByte] at hc
      cases hc
  two_le := by
    right
    have hpos := List.length_pos_iff.mpr h.result_ne
    rw [List.length_append, List.length_singleton]
    omega
  chars := by
    intro d hd'
    rcases List.mem_append.mp hd' with hd' | hd'
    · rcases h.result with ⟨hresult, -⟩ | hresult
      · rw [hresult] at hd'
        exact h.chars d hd'
      · rw [hresult] at hd'
        rcases List.mem_append.mp hd' with hd' | hd'
        · exact h.chars d hd'
        · obtain rfl : d = signByte st.plus := by simpa using hd'
          cases st.plus
          · exact .inr (.inl rfl)
          · exact .inl rfl
    · obtain rfl : d = c := by simpa using hd'
      exact .inr (.inr hc)
  length_le := by
    have hlen := h.length_result
    simp only [ModeLoop.after, if_pos hok, List.length_append, List.length_singleton]
    omega

/-! ### The loop of the other server -/

/-- The loop of the other server behind a mode string. -/
def relayLoop (t : ModeTable) (second : Clients) (chan : Chan) (args : List Bytes) (modes : Bytes) :
    ModeLoop :=
  modes.foldl (modeChar t second none) (.start chan args)

theorem relayLoop_append (chan : Chan) (args : List Bytes) (modes : Bytes) (c : UInt8) :
    relayLoop t second chan args (modes ++ [c]) =
      modeChar t second none (relayLoop t second chan args modes) c := by
  rw [relayLoop, List.foldl_append]
  rfl

/-- Every byte puts one more into the result at most. -/
theorem length_result_modeChar_le (t : ModeTable) (cl : Clients) (cli : Option Actor)
    (st : ModeLoop) (c : UInt8) :
    (modeChar t cl cli st c).result.length ≤ st.result.length + 1 := by
  rcases modeChar_cases t cl cli st c with
    ⟨args, skip, -, -, heq⟩ | ⟨-, heq⟩ | ⟨hd, hacc, heq⟩
  · rw [heq]
    exact Nat.le_succ _
  · rw [heq]
    show (putSign _ _ _).length ≤ _
    rw [putSign]
    split
    · rw [List.length_append, List.length_dropLast, List.length_singleton]
      omega
    · rw [List.length_append, List.length_singleton]
  · obtain ⟨-, -, hok⟩ := ModeLoop.accepted_eq_some.mp hacc
    rw [heq, ModeLoop.after]
    simp [hok]

theorem length_result_relayLoop_le (t : ModeTable) (second : Clients) (chan : Chan)
    (args : List Bytes) (modes : Bytes) :
    (relayLoop t second chan args modes).result.length ≤ modes.length + 1 := by
  induction modes using List.reverseRecOn with
  | nil => exact le_rfl
  | append_singleton modes c ih =>
    have hstep := length_result_modeChar_le t second none (relayLoop t second chan args modes) c
    rw [relayLoop_append, List.length_append, List.length_singleton]
    omega

/-- There is room for all the arguments that are left, so that no mode is skipped. -/
structure ModeLoop.Roomy (r : ModeLoop) : Prop where
  skip : r.skip = false
  room : r.rbuf.length + (flatWords r.args).length < RBUF_SIZE

theorem flatWords_cons (w : Bytes) (ws : List Bytes) :
    flatWords (w :: ws) = blank :: (w ++ flatWords ws) := rfl

theorem ModeLoop.Roomy.crowded {r : ModeLoop} (h : r.Roomy) : r.crowded = false := by
  have hroom := h.room
  cases hargs : r.args with
  | nil => simp [ModeLoop.crowded, hargs]
  | cons w ws =>
    rw [hargs, flatWords_cons, List.length_cons, List.length_append] at hroom
    simp only [ModeLoop.crowded, hargs, List.head?_cons, Option.any_some, decide_eq_false_iff_not]
    omega

/-- A handler is called: the argument that it uses goes from `args` to `rbuf` at most. -/
theorem ModeLoop.Roomy.after {r : ModeLoop} (h : r.Roomy) (c : UInt8) {hd : Handled}
    (hused : hd.res = .ok → ∀ w, hd.argused = some w → r.args.head? = some w) :
    (r.after c hd).Roomy where
  skip := h.skip
  room := by
    have hroom := h.room
    cases hargused : hd.argused with
    | none => simpa [ModeLoop.after, hargused] using hroom
    | some w =>
      simp only [ModeLoop.after, hargused, Option.isSome_some, if_true]
      by_cases hok : hd.res = .ok
      · obtain ⟨ws, hargs⟩ := List.head?_eq_some_iff.mp (hused hok w hargused)
        rw [hargs, flatWords_cons] at hroom
        rw [if_pos hok, hargs, List.tail_cons]
        simp only [List.length_append, List.length_cons] at hroom ⊢
        omega
      · rw [if_neg hok]
        cases hargs : r.args with
        | nil => simpa [hargs] using hroom
        | cons v ws =>
          rw [hargs, flatWords_cons, List.length_cons, List.length_append] at hroom
          rw [List.tail_cons]
          omega

/-- A sign only changes the sign. -/
theorem modeChar_signByte {r : ModeLoop} (h : r.skip = false) (p : Bool) :
    ∃ result, modeChar t second none r (signByte p) = { r with plus := p, result := result } := by
  have hmax : ¬ ((none : Option Actor).isSome ∧ MAXMODES ≤ r.mset) := by simp
  rw [modeChar, if_neg (by simp [h]), if_neg hmax]
  cases p with
  | true =>
    rw [if_pos (show signByte true = plusSign from rfl)]
    by_cases hp : r.plus
    · rw [if_pos hp]
      exact ⟨r.result, by rw [← hp]⟩
    · rw [if_neg hp]
      exact ⟨_, rfl⟩
  | false =>
    rw [if_neg (show signByte false ≠ plusSign by decide),
      if_pos (show signByte false = minusSign from rfl)]
    by_cases hp : r.plus
    · rw [if_pos hp]
      exact ⟨_, rfl⟩
    · rw [if_neg hp]
      exact ⟨r.result, by rw [← Bool.eq_false_iff.mpr hp]⟩

/-- The loop of the other server, behind what is passed on of our result, has come as far. -/
structure Tracks (aside : UInt8 → Prop) (st : ModeLoop) (sent : Bytes) (r : ModeLoop) : Prop where
  roomy : r.Roomy
  plus : r.plus = (scanModes sent).1
  chan : Mirrors aside st.chan r.chan

/-- Behind the whole of our result the sign is the same too. -/
theorem Tracks.catchUp {aside : UInt8 → Prop} {st : ModeLoop} {sent : Bytes} {chan : Chan}
    {args : List Bytes} (h : Tracks aside st sent (relayLoop t second chan args sent))
    (hshape : Shape st sent) :
    ∃ result, relayLoop t second chan args st.result =
      { relayLoop t second chan args sent with plus := st.plus, result := result } := by
  rcases hshape.result with ⟨hresult, hplus, -⟩ | hresult
  · rw [hresult, ← hplus, ← h.plus]
    exact ⟨_, rfl⟩
  · rw [hresult, relayLoop_append]
    exact modeChar_signByte h.roomy.skip st.plus

/-- The other server's handler is called for the change that we have accepted. -/
theorem Tracks.relayLoop_eq {aside : UInt8 → Prop} {st : ModeLoop} {sent : Bytes} {chan : Chan}
    {args : List Bytes} (h : Tracks aside st sent (relayLoop t second chan args sent))
    (hshape : Shape st sent) {c : UInt8} (hplus : c ≠ plusSign) (hminus : c ≠ minusSign) :
    ∃ result, relayLoop t second chan args (st.result ++ [c]) =
      let r := relayLoop t second chan args sent
      ModeLoop.after { r with plus := st.plus, result := result } c
        (changeMode t second none r.chan c st.plus r.args.head?) := by
  obtain ⟨result, hcatch⟩ := h.catchUp hshape
  have hroomy := h.roomy
  have hreach : ModeLoop.Reaches none
      { relayLoop t second chan args sent with plus := st.plus, result := result } c :=
    ⟨hroomy.skip, by simp, hplus, hminus, hroomy.crowded⟩
  refine ⟨result, ?_⟩
  rw [relayLoop_append, hcatch, modeChar_of_reaches hreach]

theorem isModeChar_of_accepted {st : ModeLoop} {c : UInt8} {hd : Handled}
    (h : st.accepted t cl cli c = some hd) : isModeChar c = true := by
  obtain ⟨-, hhd, hok⟩ := ModeLoop.accepted_eq_some.mp h
  cases hkind : t.kind c with
  | none =>
    rw [changeMode, hkind] at hhd
    rw [← hhd] at hok
    cases hok
  | some k => exact t.isModeChar_of_kind c k hkind

theorem keySet_append {st : ModeLoop} {sent : Bytes} (h : Shape st sent) {c : UInt8}
    (hc : isModeChar c = true) (m : UInt8) :
    KeySet t (st.result ++ [c]) m ↔
      KeySet t sent m ∨ (t.kind c = some .key ∧ st.plus = true ∧ m = c) := by
  obtain ⟨hplus, hminus⟩ := ne_sign_of_isModeChar hc
  rw [KeySet, KeySet, scanModes_mode _ hplus hminus, h.scan]
  simp only [Bool.or_eq_true, Bool.and_eq_true, beq_iff_eq]
  constructor
  · rintro ⟨hkind, hset | ⟨hp, rfl⟩⟩
    · exact .inl ⟨hkind, hset⟩
    · exact .inr ⟨hkind, hp, rfl⟩
  · rintro (⟨hkind, hset⟩ | ⟨hkind, hp, rfl⟩)
    · exact ⟨hkind, .inl hset⟩
    · exact ⟨hkind, .inr ⟨hp, rfl⟩⟩

section

variable {aside : UInt8 → Prop} {st : ModeLoop} {sent : Bytes} {chan : Chan} {args : List Bytes}
  {a : Actor} {c : UInt8} {hd : Handled}

/-- A change that we accept is accepted by the other server, if its argument is the next one
there. -/
theorem Tracks.accept_handled (hnet : SameNetwork cl second)
    (h : Tracks aside st sent (relayLoop t second chan args sent)) (hshape : Shape st sent)
    (hacc : st.accepted t cl (some a) c = some hd) (hban : t.kind c = some .ban → ¬ aside c)
    (hargs : ∀ w, hd.argused = some w → (relayLoop t second chan args sent).args.head? = some w) :
    ∃ result hd', relayLoop t second chan args (st.result ++ [c]) =
        ModeLoop.after
          { relayLoop t second chan args sent with plus := st.plus, result := result } c hd' ∧
      changeMode t second none (relayLoop t second chan args sent).chan c st.plus
        (relayLoop t second chan args sent).args.head? = hd' ∧
      hd.Mirrors (fun m => aside m ∨ (t.kind c = some .key ∧ st.plus = true ∧ m = c)) hd' := by
  obtain ⟨⟨-, -, hplus, hminus, -⟩, hhd, hok⟩ := ModeLoop.accepted_eq_some.mp hacc
  obtain ⟨result, hrelay⟩ := h.relayLoop_eq hshape hplus hminus
  refine ⟨result, _, hrelay, rfl, ?_⟩
  rw [← hhd] at hok hargs ⊢
  exact changeMode_mirrors hnet h.chan hban hok hargs

/-- A change that we accept is made at the other server, if its argument is the next one there. -/
theorem Tracks.accept (hnet : SameNetwork cl second)
    (h : Tracks aside st sent (relayLoop t second chan args sent)) (hshape : Shape st sent)
    (hacc : st.accepted t cl (some a) c = some hd) (hban : t.kind c = some .ban → ¬ aside c)
    (hargs : ∀ w, hd.argused = some w → (relayLoop t second chan args sent).args.head? = some w) :
    Tracks (fun m => aside m ∨ (t.kind c = some .key ∧ st.plus = true ∧ m = c)) (st.after c hd)
        (st.result ++ [c]) (relayLoop t second chan args (st.result ++ [c])) ∧
      (relayLoop t second chan args (st.result ++ [c])).args =
        if hd.argused.isSome then (relayLoop t second chan args sent).args.tail
        else (relayLoop t second chan args sent).args := by
  obtain ⟨⟨-, -, hplus, hminus, -⟩, -, -⟩ := ModeLoop.accepted_eq_some.mp hacc
  obtain ⟨result, hd', hrelay, -, hok', hused, hchan⟩ :=
    h.accept_handled hnet hshape hacc hban hargs
  rw [hrelay]
  refine ⟨⟨?_, ?_, hchan⟩, ?_⟩
  · have hroomy : ModeLoop.Roomy
        { relayLoop t second chan args sent with plus := st.plus, result := result } :=
      ⟨h.roomy.skip, h.roomy.room⟩
    exact hroomy.after c fun _ w hw => hargs w (by rw [← hused, hw])
  · rw [scanModes_mode _ hplus hminus, hshape.scan]
    rfl
  · simp only [ModeLoop.after, hused]

end

end Ithildin
