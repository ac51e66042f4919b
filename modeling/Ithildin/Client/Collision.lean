import Ithildin.Client.Nick
import Mathlib.Data.List.Nodup
import Mathlib.Tactic.Common

/-!
# Crossing NICKs

Two linked servers each hold a client, each client takes the same nick, and the two NICK lines cross
on the link.  Each server executes the line of the other one.

* `Claim`, `Side`, `Crossing`: how the clients took the nick and what the servers hold when the
  lines arrive;
* `Side.receive`, `Side.holder`: the line of the other side executed, and the client that is left
  under the nick;
* `Side.holder_eq`: the client is the one that the two stamps a server sees choose;
* `Crossing.agree_iff`: when the two servers choose the same client.
-/

namespace Ithildin

/-! ### The table of nicks -/

namespace NickTable

variable {conf : NickConf} {t : NickTable} {id : ℕ} {u : User} {nick : Bytes}

theorem mem_destroy {p : ℕ × User} : p ∈ t.destroy id ↔ p ∈ t ∧ p.1 ≠ id := by
  simp [destroy]

theorem mem_modify {f : User → User} {p : ℕ × User} :
    p ∈ t.modify id f ↔ (p ∈ t ∧ p.1 ≠ id) ∨ ∃ u, (id, u) ∈ t ∧ p = (id, f u) := by
  rw [modify, List.mem_map]
  constructor
  · rintro ⟨q, hq, rfl⟩
    by_cases hid : q.1 = id
    · right
      refine ⟨q.2, ?_, by rw [if_pos hid]⟩
      rw [← hid]
      exact hq
    · left
      rw [if_neg hid]
      exact ⟨hq, hid⟩
  · rintro (⟨hp, hid⟩ | ⟨u, hu, rfl⟩)
    · exact ⟨p, hp, if_neg hid⟩
    · exact ⟨(id, u), hu, if_pos rfl⟩

/-- Whoever holds the nick is the client `id`. -/
def HeldOnlyBy (conf : NickConf) (t : NickTable) (nick : Bytes) (id : ℕ) : Prop :=
  ∀ p ∈ t, conf.fold p.2.nick = conf.fold nick → p.1 = id

instance : Decidable (HeldOnlyBy conf t nick id) :=
  inferInstanceAs (Decidable (∀ p ∈ t, _ → _))

/-- The client that `find_client_any` finds. -/
def holder (conf : NickConf) (t : NickTable) (nick : Bytes) : Option ℕ :=
  (t.findClientAny conf nick).map Prod.fst

theorem holder_eq_some (honly : t.HeldOnlyBy conf nick id) (hmem : (id, u) ∈ t)
    (hnick : conf.fold u.nick = conf.fold nick) : t.holder conf nick = some id := by
  rw [holder]
  cases hfind : t.findClientAny conf nick with
  | none =>
    have hnone := List.find?_eq_none.mp hfind (id, u) hmem
    exact absurd (decide_eq_true hnick) hnone
  | some p =>
    have hp := honly p (List.mem_of_find?_eq_some hfind) (by simpa using List.find?_some hfind)
    rw [Option.map_some, hp]

theorem holder_eq_none (hnone : ∀ p ∈ t, conf.fold p.2.nick ≠ conf.fold nick) :
    t.holder conf nick = none := by
  rw [holder, Option.map_eq_none_iff]
  exact List.find?_eq_none.mpr fun p hp => by simpa using hnone p hp

theorem find?_eq_some (hnodup : (t.map Prod.fst).Nodup) (hmem : (id, u) ∈ t) :
    (t.find? fun p => p.1 = id) = some (id, u) := by
  cases hfind : t.find? fun p => p.1 = id with
  | none =>
    have hnone := List.find?_eq_none.mp hfind (id, u) hmem
    exact absurd (decide_eq_true rfl) hnone
  | some p =>
    have hp : p.1 = id := by simpa using List.find?_some hfind
    have hpu : p = (id, u) :=
      List.inj_on_of_nodup_map hnodup (List.mem_of_find?_eq_some hfind) hmem hp
    rw [hpu]

theorem findClientAny_eq_some (hnodup : (t.map Prod.fst).Nodup)
    (honly : t.HeldOnlyBy conf nick id) (hmem : (id, u) ∈ t)
    (hnick : conf.fold u.nick = conf.fold nick) :
    t.findClientAny conf nick = some (id, u) := by
  have hholder := holder_eq_some honly hmem hnick
  rw [holder, Option.map_eq_some_iff] at hholder
  obtain ⟨p, hfind, hp⟩ := hholder
  have hpu : p = (id, u) :=
    List.inj_on_of_nodup_map hnodup (List.mem_of_find?_eq_some hfind) hmem hp
  rw [hfind, hpu]

end NickTable

/-! ### The two sides -/

/-- How a client took the nick; `old` is what the other server still has of a client that
changed its nick. -/
inductive Claim
  | introduction
  | change (old : User)
  deriving DecidableEq

/-- One of the servers, when the line of the other one arrives. -/
structure Side where
  conf : NickConf
  table : NickTable
  supportsTs : Bool
  allowed : Bool
  now : ℤ
  id : ℕ
  user : User
  claim : Claim

namespace Side

/-- `other`'s line is executed: an introduction, or a change by the client it names. -/
def receive (s other : Side) : NickTable :=
  match other.claim with
  | .introduction =>
      (serverNick s.conf s.supportsTs s.table other.id other.user.nick
        (printLong other.user.ts)).table
  | .change _ =>
      match s.table.find? fun p => p.1 = other.id with
      | some cli =>
          (clientNick s.conf s.supportsTs s.allowed s.now s.table cli other.user.nick
            (some (printLong other.user.ts))).table
      | none => s.table

/-- The client that is left under the nick. -/
def holder (s other : Side) : Option ℕ :=
  (s.receive other).holder s.conf s.user.nick

/-- The timestamp of `other`'s client that the collision is decided by. -/
def stampOf (s other : Side) : ℤ :=
  match other.claim with
  | .introduction => if s.supportsTs then strConvInt (printLong other.user.ts) 0 else 0
  | .change old => old.ts

/-- What `s` holds when `other`'s line arrives: its own client is the only one with the nick, and
`other`'s is not there yet, or is there with another nick. -/
structure Ready (s other : Side) : Prop where
  registered : s.user.registered
  good : nickOk s.conf other.user.nick
  same : s.conf.fold s.user.nick = s.conf.fold other.user.nick
  distinct : s.id ≠ other.id
  nodup : (s.table.map Prod.fst).Nodup
  mem : (s.id, s.user) ∈ s.table
  only : s.table.HeldOnlyBy s.conf s.user.nick s.id
  new : other.claim = .introduction → ∀ p ∈ s.table, p.1 ≠ other.id
  known : ∀ old, other.claim = .change old →
    (other.id, old) ∈ s.table ∧ ¬ old.mine ∧ old.registered

end Side

/-- The choice of `check_collision` between a client and a newcomer, by their timestamps. -/
def chosen (known unknown : ℕ) (x y : ℤ) : Option ℕ :=
  if NoTs x y then none else if x < y then some known else some unknown

theorem noTs_comm {x y : ℤ} : NoTs x y ↔ NoTs y x := by
  simp only [NoTs]
  omega

/-- Two servers that see the clients in opposite roles choose the same one. -/
theorem chosen_eq_chosen_iff {a b : ℕ} (hne : a ≠ b) {x s y t : ℤ} :
    chosen a b x s = chosen b a y t ↔
      (NoTs x s ∧ NoTs y t) ∨ (¬ NoTs x s ∧ ¬ NoTs y t ∧ (x < s ↔ t < y)) := by
  simp only [chosen]
  by_cases hx : NoTs x s
  · rw [if_pos hx]
    by_cases hy : NoTs y t
    · rw [if_pos hy]
      exact iff_of_true rfl (.inl ⟨hx, hy⟩)
    · rw [if_neg hy]
      refine iff_of_false ?_ ?_
      · split <;> simp
      · rintro (⟨-, h⟩ | ⟨h, -⟩)
        · exact hy h
        · exact h hx
  · rw [if_neg hx]
    by_cases hy : NoTs y t
    · rw [if_pos hy]
      refine iff_of_false ?_ ?_
      · split <;> simp
      · rintro (⟨h, -⟩ | ⟨-, h, -⟩)
        · exact hx h
        · exact h hy
    · rw [if_neg hy]
      have horder : t < y ↔ ¬ y < t := by
        simp only [NoTs] at hy
        omega
      by_cases hxs : x < s
      · by_cases hyt : y < t
        · simp [hx, hy, hxs, hyt, horder, hne]
        · simp [hx, hy, hxs, hyt, horder]
      · by_cases hyt : y < t
        · simp [hx, hy, hxs, hyt, horder]
        · simp [hx, hy, hxs, hyt, horder, Ne.symm hne]

/-! ### The line of the other side -/

section

variable (t : NickTable) (known unknown : ℕ × User) (new : Bool)

theorem checkCollision_winner (h : known.2.registered) :
    (checkCollision t known unknown new).winner =
      chosen known.1 unknown.1 known.2.ts unknown.2.ts := by
  have hkept : ¬ (known.2.mine ∧ ¬ known.2.registered) := fun h' => h'.2 h
  rw [checkCollision, if_neg hkept, chosen]
  by_cases hno : NoTs known.2.ts unknown.2.ts
  · rw [if_pos hno, if_pos hno]
  · rw [if_neg hno, if_neg hno]
    by_cases hlt : known.2.ts < unknown.2.ts
    · rw [if_pos hlt, if_pos hlt]
    · rw [if_neg hlt, if_neg hlt]

/-- Of the two clients the one that is chosen is left; the others stay. -/
theorem mem_checkCollision (h : known.2.registered) (hne : known.1 ≠ unknown.1) {p : ℕ × User} :
    p ∈ (checkCollision t known unknown new).table ↔ p ∈ t ∧
      (p.1 = known.1 ∨ p.1 = unknown.1 →
        chosen known.1 unknown.1 known.2.ts unknown.2.ts = some p.1) := by
  have hkept : ¬ (known.2.mine ∧ ¬ known.2.registered) := fun h' => h'.2 h
  rw [checkCollision, if_neg hkept, chosen]
  by_cases hno : NoTs known.2.ts unknown.2.ts
  · rw [if_pos hno, if_pos hno]
    simp only [NickTable.mem_destroy]
    tauto
  · rw [if_neg hno, if_neg hno]
    by_cases hlt : known.2.ts < unknown.2.ts
    · rw [if_pos hlt, if_pos hlt]
      simp only [NickTable.mem_destroy, Option.some.injEq]
      grind
    · rw [if_neg hlt, if_neg hlt]
      simp only [NickTable.mem_destroy, Option.some.injEq]
      grind

end

namespace Side

variable {s other : Side}

/-- The record of `other`'s client once it has the nick. -/
def newcomer (s other : Side) : User :=
  match other.claim with
  | .introduction => ⟨other.user.nick, s.stampOf other, false, true⟩
  | .change old =>
      { old with
        nick := other.user.nick
        ts := if s.supportsTs then strConvInt (printLong other.user.ts) 0 else 0 }

/-- What `s` chooses. -/
def choice (s other : Side) : Option ℕ := chosen s.id other.id s.user.ts (s.stampOf other)

theorem choice_eq (s other : Side) :
    s.choice other = none ∨ s.choice other = some s.id ∨ s.choice other = some other.id := by
  unfold choice chosen
  split_ifs <;> simp

theorem findClientAny_eq (h : s.Ready other) :
    s.table.findClientAny s.conf other.user.nick = some (s.id, s.user) := by
  have honly : s.table.HeldOnlyBy s.conf other.user.nick s.id := by
    intro p hp hnick
    exact h.only p hp (hnick.trans h.same.symm)
  exact NickTable.findClientAny_eq_some h.nodup honly h.mem h.same

theorem stampOf_introduction (hclaim : other.claim = .introduction) :
    s.stampOf other = if s.supportsTs then strConvInt (printLong other.user.ts) 0 else 0 := by
  rw [stampOf, hclaim]

/-- An introduction arrives. -/
theorem receive_introduction (h : s.Ready other) (hclaim : other.claim = .introduction) :
    s.receive other =
      let r := checkCollision s.table (s.id, s.user) (other.id, s.newcomer other) true
      if s.choice other = some other.id then (other.id, s.newcomer other) :: r.table
      else r.table := by
  obtain ⟨⟨⟨-, hfirst⟩, hall⟩, hlen⟩ : ((other.user.nick ≠ [] ∧
      (other.user.nick.take 1).all s.conf.nickFirst) ∧ other.user.nick.all s.conf.nickMap) ∧
      other.user.nick.length ≤ s.conf.nicklen := by
    simpa [nickOk] using h.good
  have hgood : ¬ (¬ (other.user.nick.take 1).all s.conf.nickFirst ∨
      ¬ other.user.nick.all s.conf.nickMap ∨ s.conf.nicklen < other.user.nick.length) := by
    rintro (h' | h' | h')
    · exact h' hfirst
    · exact h' hall
    · omega
  have hcp : s.newcomer other = ⟨other.user.nick, s.stampOf other, false, true⟩ := by
    rw [newcomer, hclaim]
  have hwinner := checkCollision_winner s.table (s.id, s.user) (other.id, s.newcomer other) true
    h.registered
  rw [receive, hclaim]
  dsimp only
  rw [serverNick, if_neg hgood]
  dsimp only
  rw [findClientAny_eq h]
  dsimp only
  rw [← stampOf_introduction hclaim, ← hcp, hwinner, choice]
  dsimp only
  rw [hcp]

/-- A change of nick arrives. -/
theorem receive_change (h : s.Ready other) {old : User} (hclaim : other.claim = .change old) :
    s.receive other =
      let r := checkCollision s.table (s.id, s.user) (other.id, old) false
      if s.choice other = some other.id then r.table.modify other.id fun u =>
        { u with
          nick := other.user.nick
          ts := if s.supportsTs then strConvInt (printLong other.user.ts) 0 else 0 }
      else r.table := by
  obtain ⟨hmem, hmine, hregistered⟩ := h.known old hclaim
  have hfind := NickTable.find?_eq_some h.nodup hmem
  have hnick : s.conf.fold old.nick ≠ s.conf.fold other.user.nick := by
    intro hold
    exact h.distinct (h.only _ hmem (hold.trans h.same.symm)).symm
  have hwinner := checkCollision_winner s.table (s.id, s.user) (other.id, old) false h.registered
  have hchange : ∀ t ts, changeNick s.supportsTs s.allowed t (other.id, old) other.user.nick ts =
      t.modify other.id fun u =>
        { u with nick := other.user.nick, ts := if s.supportsTs then ts else 0 } := by
    intro t ts
    have hne : old.nick ≠ other.user.nick := fun hold => hnick (by rw [hold])
    rw [changeNick, if_neg (not_not_intro hregistered), if_neg hne, if_neg fun h' => hmine h'.1]
  rw [receive, hclaim]
  dsimp only
  rw [hfind]
  dsimp only
  rw [clientNick, if_neg (not_not_intro h.good)]
  dsimp only
  rw [if_neg hnick, findClientAny_eq h]
  dsimp only
  rw [if_neg hmine, if_neg hmine, hwinner, hchange, choice, stampOf, hclaim]
  rfl

/-- What is left: the table without the losers, and the newcomer if it is chosen. -/
theorem mem_receive (h : s.Ready other) (p : ℕ × User) :
    p ∈ s.receive other ↔
      (p ∈ s.table ∧ p.1 ≠ other.id ∧ (p.1 = s.id → s.choice other = some s.id)) ∨
      (p = (other.id, s.newcomer other) ∧ s.choice other = some other.id) := by
  have hdistinct := h.distinct
  cases hclaim : other.claim with
  | introduction =>
    have hnew := h.new hclaim
    have hmem := mem_checkCollision s.table (s.id, s.user) (other.id, s.newcomer other) true
      h.registered h.distinct (p := p)
    have hchoice : chosen s.id other.id s.user.ts (s.newcomer other).ts = s.choice other := by
      rw [choice, newcomer, hclaim]
    dsimp only at hmem
    rw [hchoice] at hmem
    rw [receive_introduction h hclaim]
    dsimp only
    by_cases hother : s.choice other = some other.id
    · rw [if_pos hother, List.mem_cons, hmem, hother]
      simp only [Option.some.injEq]
      grind
    · rw [if_neg hother, hmem]
      grind
  | change old =>
    obtain ⟨hold, -, -⟩ := h.known old hclaim
    have hmem := fun p => mem_checkCollision s.table (s.id, s.user) (other.id, old) false
      h.registered h.distinct (p := p)
    have hchoice : chosen s.id other.id s.user.ts old.ts = s.choice other := by
      rw [choice, stampOf, hclaim]
    dsimp only at hmem
    rw [hchoice] at hmem
    rw [receive_change h hclaim]
    dsimp only
    by_cases hother : s.choice other = some other.id
    · have hrecord : ∀ u, (other.id, u) ∈ s.table → u = old := by
        intro u hu
        have heq := List.inj_on_of_nodup_map h.nodup hu hold rfl
        exact (Prod.mk.inj heq).2
      rw [if_pos hother, NickTable.mem_modify]
      constructor
      · rintro (⟨hp, hid⟩ | ⟨u, hu, rfl⟩)
        · left
          have := (hmem p).mp hp
          exact ⟨this.1, hid, fun hs => by rw [this.2 (.inl hs), hs]⟩
        · right
          rw [hrecord u ((hmem _).mp hu).1, newcomer, hclaim]
          exact ⟨rfl, hother⟩
      · rintro (⟨hp, hid, hs⟩ | ⟨rfl, -⟩)
        · left
          refine ⟨(hmem p).mpr ⟨hp, ?_⟩, hid⟩
          rintro (hs' | ho')
          · rw [hs hs', hs']
          · exact absurd ho' hid
        · right
          refine ⟨old, (hmem _).mpr ⟨hold, fun _ => hother⟩, ?_⟩
          rw [newcomer, hclaim]
    · rw [if_neg hother, hmem]
      grind

/-- The client that is left under the nick is the one that the server chooses. -/
theorem holder_eq (h : s.Ready other) : s.holder other = s.choice other := by
  have hmem := mem_receive h
  have hnick : (s.newcomer other).nick = other.user.nick := by
    rw [newcomer]
    split <;> rfl
  rcases s.choice_eq other with hchoice | hchoice | hchoice
  · rw [hchoice]
    refine NickTable.holder_eq_none ?_
    intro p hp hfold
    rcases (hmem p).mp hp with ⟨hp, -, hs⟩ | ⟨-, ho⟩
    · rw [hchoice] at hs
      exact absurd (hs (h.only p hp hfold)) (by simp)
    · rw [hchoice] at ho
      exact absurd ho (by simp)
  · rw [hchoice]
    refine NickTable.holder_eq_some (u := s.user) ?_ ?_ rfl
    · intro p hp hfold
      rcases (hmem p).mp hp with ⟨hp, -, -⟩ | ⟨-, ho⟩
      · exact h.only p hp hfold
      · rw [hchoice] at ho
        exact absurd (Option.some.inj ho) h.distinct
    · exact (hmem _).mpr (.inl ⟨h.mem, h.distinct, fun _ => hchoice⟩)
  · rw [hchoice]
    refine NickTable.holder_eq_some (u := s.newcomer other) ?_ ?_ ?_
    · intro p hp hfold
      rcases (hmem p).mp hp with ⟨hp, -, hs⟩ | ⟨rfl, -⟩
      · have hid := h.only p hp hfold
        rw [hchoice] at hs
        exact absurd (Option.some.inj (hs hid)).symm h.distinct
      · rfl
    · exact (hmem _).mpr (.inr ⟨rfl, hchoice⟩)
    · rw [hnick, h.same]

end Side

/-! ### The crossing -/

/-- Two servers, the line of each on its way to the other. -/
structure Crossing where
  a : Side
  b : Side
  readyA : a.Ready b
  readyB : b.Ready a

namespace Crossing

/-- Both lines are executed and the servers agree who has the nick. -/
def Agree (c : Crossing) : Prop := c.a.holder c.b = c.b.holder c.a

instance (c : Crossing) : Decidable c.Agree := inferInstanceAs (Decidable (_ = _))

/-- The servers agree exactly when neither has timestamps to choose by, or both have and order the
two clients the same way. -/
theorem agree_iff (c : Crossing) :
    c.Agree ↔
      (NoTs c.a.user.ts (c.a.stampOf c.b) ∧ NoTs c.b.user.ts (c.b.stampOf c.a)) ∨
      (¬ NoTs c.a.user.ts (c.a.stampOf c.b) ∧ ¬ NoTs c.b.user.ts (c.b.stampOf c.a) ∧
        (c.a.user.ts < c.a.stampOf c.b ↔ c.b.stampOf c.a < c.b.user.ts)) := by
  rw [Agree, Side.holder_eq c.readyA, Side.holder_eq c.readyB]
  exact chosen_eq_chosen_iff c.readyA.distinct

/-- `a` changes its nick at 100 and has the stamp 10 from before at the other server, where `b` took
the nick at 50. -/
def opposed : Crossing :=
  let conf : NickConf := ⟨30, fun _ => true, fun _ => true, id⟩
  let old : User := ⟨bytes "o", 10, false, true⟩
  let a : User := ⟨bytes "n", 100, false, true⟩
  let b : User := ⟨bytes "n", 50, true, true⟩
  { a := ⟨conf, [(0, a)], true, true, 100, 0, a, .change old⟩
    b := ⟨conf, [(1, b), (0, old)], true, true, 100, 1, b, .introduction⟩
    readyA :=
      { registered := rfl
        good := by decide
        same := rfl
        distinct := by decide
        nodup := by decide
        mem := by decide
        only := by decide
        new := by decide
        known := by rintro _ ⟨⟩ }
    readyB :=
      { registered := rfl
        good := by decide
        same := rfl
        distinct := by decide
        nodup := by decide
        mem := by decide
        only := by decide
        new := by rintro ⟨⟩
        known := by rintro _ ⟨⟩; decide } }

/-- `a`'s server keeps `b`, `b`'s server keeps `a`. -/
theorem opposed_not_agree : opposed.a.holder opposed.b = some 1 ∧
    opposed.b.holder opposed.a = some 0 ∧ ¬ opposed.Agree := by
  decide

/-- Two introductions over links with timestamps that fit into 31 bits. -/
theorem agree_of_introductions (c : Crossing) (hA : c.a.claim = .introduction)
    (hB : c.b.claim = .introduction) (htsA : c.a.supportsTs) (htsB : c.b.supportsTs)
    (hrangeA : 0 ≤ c.a.user.ts ∧ c.a.user.ts < 2147483648)
    (hrangeB : 0 ≤ c.b.user.ts ∧ c.b.user.ts < 2147483648) : c.Agree := by
  have hb : c.a.stampOf c.b = c.b.user.ts := by
    rw [Side.stampOf_introduction hB, if_pos htsA, strConvInt_printLong hrangeB.1 hrangeB.2]
  have ha : c.b.stampOf c.a = c.a.user.ts := by
    rw [Side.stampOf_introduction hA, if_pos htsB, strConvInt_printLong hrangeA.1 hrangeA.2]
  rw [agree_iff, hb, ha]
  by_cases hno : NoTs c.a.user.ts c.b.user.ts
  · exact .inl ⟨hno, noTs_comm.mp hno⟩
  · exact .inr ⟨hno, fun h => hno (noTs_comm.mp h), Iff.rfl⟩

end Crossing

end Ithildin
