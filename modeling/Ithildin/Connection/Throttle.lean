import Ithildin.Lib.Run
import Mathlib.Algebra.Order.Ring.Int
import Mathlib.Logic.Function.Basic

/-!
# Throttling of addresses that connect too fast

`throttle.c`. Addresses are told apart by their packed form, which records are found by.

* `Throttle`: the record of an address;
* `throttleConfHook`: `throttle_conf_hook`, for a configuration with at least one stage;
* `stage1Hook`, `timerHook`: the two other hooks, with every index that they use;
* `ThrottleState.step`: connections, expiries and rehashes;
* `ThrottleState.Sound`: what holds of the bans that are running;
* `throttle_sound`: it holds throughout, as long as the timer's index does no harm.
-/

namespace Ithildin

/-! ### The configuration -/

/-- The numbers of a `throttle` section, or the defaults; `times` are the entries of its list
`stages`, 0 for what makes no sense. -/
structure ThrottleSection where
  conns : ℤ
  span : ℤ
  stages : ℕ
  cache : ℤ
  times : List ℤ
  stages_pos : 0 < stages

/-- What `throttle` has of the configuration; the table has one length for each stage. -/
structure ThrottleConf where
  conns : ℤ
  span : ℤ
  cache : ℤ
  lengths : List ℤ

/-- A product that is stored as a `time_t`. -/
def toTime (v : ℤ) : ℤ := v.bmod 18446744073709551616

/-- The length of a stage that is not configured. -/
def nextLength (i : ℕ) (last : ℤ) : ℤ := if i = 0 then 180 else toTime (last * (i + 1))

/-- The lengths when none are configured. -/
def defaultLengths : ℕ → List ℤ
  | 0 => []
  | i + 1 => defaultLengths i ++ [nextLength i ((defaultLengths i).getLastD 0)]

/-- The loop over the configured lengths. -/
def readTimes : ℕ → List ℤ → List ℤ → List ℤ
  | _, [], lengths => lengths
  | i, time :: times, lengths =>
      if lengths.length ≤ i then lengths
      else
        readTimes (i + 1) times
          (lengths.set i (if time = 0 then nextLength i (lengths.getD (i - 1) 0) else time))

/-- `throttle_conf_hook`. -/
def throttleConfHook (sec : ThrottleSection) : ThrottleConf where
  conns := sec.conns
  span := sec.span
  cache := sec.cache
  lengths := readTimes 0 sec.times (defaultLengths sec.stages)

/-! ### Records -/

/-- `struct throttle`, with the time its timer goes off. -/
structure Throttle where
  first : ℤ
  count : ℤ
  span : ℤ
  banned : ℤ
  due : ℤ
  stage : ℕ

/-- `create_throttle` -/
def createThrottle (c : ThrottleConf) (now : ℤ) : Throttle where
  first := 0
  count := 0
  span := c.span
  banned := 0
  due := now + c.cache
  stage := 0

/-- `throttle.lengths[i]`, and whether the index is past the table: then it is anything. -/
def lengthAt (c : ThrottleConf) (i junk : ℤ) : ℤ × Bool :=
  if 0 ≤ i ∧ i < c.lengths.length then (c.lengths.getD i.toNat 0, false) else (junk, true)

/-- The first part of `throttle_stage1_hook`: a ban that is over is taken off, and the connection
counted. -/
def countConnection (c : ThrottleConf) (now junk : ℤ) (tp : Throttle) : Throttle × Bool :=
  let tp := if c.span < now - tp.first then { tp with first := now, count := 0 } else tp
  let r := if tp.banned ≠ 0 then lengthAt c (tp.stage - 1) junk else (0, false)
  let tp :=
    if tp.banned ≠ 0 ∧ tp.banned + r.1 < now then
      { tp with banned := 0, first := now, count := 0, span := c.span, due := now + c.cache }
    else tp
  ({ tp with count := tp.count + 1 }, r.2)

/-- The second part: the address is throttled, or its throttle goes on to the next stage. -/
def escalate (c : ThrottleConf) (now junk : ℤ) (tp : Throttle) : Throttle × Bool :=
  let tp := if tp.banned = 0 then { tp with banned := now, stage := 0 } else tp
  let tp := { tp with first := 0, count := 0 }
  let tp := if tp.stage < c.lengths.length then { tp with stage := tp.stage + 1 } else tp
  let r := lengthAt c (tp.stage - 1) junk
  let tp := if c.cache < r.1 then { tp with due := now + r.1 } else tp
  ({ tp with span := r.1 }, r.2)

/-- `throttle_stage1_hook` on the record of an address: whether it is refused, the record, and
whether an index was past the table. -/
def stage1Hook (c : ThrottleConf) (now junk : ℤ) (tp : Throttle) : Bool × Throttle × Bool :=
  let r := countConnection c now junk tp
  if r.1.count < c.conns then (decide (r.1.banned ≠ 0), r)
  else
    let r' := escalate c now junk r.1
    (true, r'.1, r.2 || r'.2)

/-- `throttle_timer_hook`: the record unless it is destroyed, and whether the index was past the
table. -/
def timerHook (c : ThrottleConf) (now junk : ℤ) (tp : Throttle) : Option Throttle × Bool :=
  let r := lengthAt c tp.stage junk
  (if now - tp.banned ≤ r.1 then some { tp with due := now + r.1 } else none, r.2)

/-! ### Runs -/

/-- The throttles. Besides what the program has there are: whether an index was past the table; the
ban of each address that is running, with its start and the length of its stage; and for each
connection whether the address was banned and whether it was refused. -/
structure ThrottleState (Addr : Type) where
  conf : ThrottleConf
  records : Addr → Option Throttle
  strayed : Bool
  bans : Addr → Option (ℤ × ℤ)
  answers : List (Bool × Bool)

/-- What happens, with the time and what stands behind the table. -/
inductive ThrottleAction (Addr : Type)
  | connect (a : Addr) (now junk : ℤ)
  | expire (a : Addr) (now junk : ℤ)
  | rehash (sec : ThrottleSection)

/-- The length of the stage of a record. -/
def stageLength (c : ThrottleConf) (tp : Throttle) : ℤ := c.lengths.getD (tp.stage - 1) 0

/-- A ban whose length has not passed. -/
def running (now : ℤ) (ban : ℤ × ℤ) : Bool := decide (now < ban.1 + ban.2)

namespace ThrottleState

variable {Addr : Type} [DecidableEq Addr]

/-- As the module is loaded. -/
def start (sec : ThrottleSection) : ThrottleState Addr where
  conf := throttleConfHook sec
  records := fun _ => none
  strayed := false
  bans := fun _ => none
  answers := []

/-- The ban of an address after a connection: a ban that is running goes on with the length of the
record's stage. -/
def nextBan (c : ThrottleConf) (now : ℤ) (tp : Throttle) (ban : Option (ℤ × ℤ)) :
    Option (ℤ × ℤ) :=
  match ban.filter (running now) with
  | some ban => some (ban.1, stageLength c tp)
  | none => if tp.banned = 0 then none else some (tp.banned, stageLength c tp)

/-- A connection, an expiry of a timer that is due, or a rehash. -/
def step (s : ThrottleState Addr) : ThrottleAction Addr → Option (ThrottleState Addr)
  | .connect a now junk =>
      if now ≤ 0 then none
      else
        let r := stage1Hook s.conf now junk ((s.records a).getD (createThrottle s.conf now))
        some
          { s with
            records := Function.update s.records a (some r.2.1)
            strayed := s.strayed || r.2.2
            bans := Function.update s.bans a (nextBan s.conf now r.2.1 (s.bans a))
            answers := (((s.bans a).any (running now)), r.1) :: s.answers }
  | .expire a now junk =>
      match s.records a with
      | none => none
      | some tp =>
          if now < tp.due then none
          else
            let r := timerHook s.conf now junk tp
            some
              { s with
                records := Function.update s.records a r.1
                strayed := s.strayed || r.2
                bans := Function.update s.bans a ((s.bans a).filter (running now)) }
  | .rehash sec =>
      some
        { s with
          conf := throttleConfHook sec
          records := fun _ => none
          bans := fun _ => none }

/-- No index was past the table; a ban that is running has its record, which knows its start and
its stage; and whoever was banned was refused. -/
structure Sound (s : ThrottleState Addr) : Prop where
  inside : s.strayed = false
  kept : ∀ a ban, s.bans a = some ban → ∃ tp, s.records a = some tp ∧ tp.banned ≠ 0 ∧
    tp.banned = ban.1 ∧ stageLength s.conf tp = ban.2
  refused : ∀ answer ∈ s.answers, answer.1 = true → answer.2 = true

/-- An expiry comes to a record below the last stage, and if it is banned and its own stage has not
passed, neither has the next one. -/
def Steady (s : ThrottleState Addr) : ThrottleAction Addr → Prop
  | .expire a now _ => ∀ tp ∈ s.records a, tp.stage < s.conf.lengths.length ∧
      (tp.banned ≠ 0 → now ≤ tp.banned + stageLength s.conf tp →
        now ≤ tp.banned + s.conf.lengths.getD tp.stage 0)
  | _ => True

instance (s : ThrottleState Addr) : DecidablePred s.Steady
  | .connect .. => inferInstanceAs (Decidable True)
  | .expire a _ _ => inferInstanceAs (Decidable (∀ tp ∈ s.records a, _ ∧ _))
  | .rehash _ => inferInstanceAs (Decidable True)

end ThrottleState

/-! ### The table -/

theorem length_defaultLengths (stages : ℕ) : (defaultLengths stages).length = stages := by
  induction stages with
  | zero => rfl
  | succ i ih => rw [defaultLengths, List.length_append, ih, List.length_singleton]

theorem length_readTimes (i : ℕ) (times lengths : List ℤ) :
    (readTimes i times lengths).length = lengths.length := by
  induction times generalizing i lengths with
  | nil => rfl
  | cons time times ih =>
    rw [readTimes]
    split
    · rfl
    · rw [ih, List.length_set]

/-- The table has a length for each stage. -/
theorem length_throttleConfHook (sec : ThrottleSection) :
    (throttleConfHook sec).lengths.length = sec.stages := by
  rw [throttleConfHook, length_readTimes, length_defaultLengths]

/-! ### The hooks -/

/-- A record has a stage of the table, and a banned one is not at stage 0. -/
structure Throttle.Ok (c : ThrottleConf) (tp : Throttle) : Prop where
  stage_le : tp.stage ≤ c.lengths.length
  stage_pos : tp.banned ≠ 0 → 0 < tp.stage

section

variable {c : ThrottleConf} {now junk : ℤ} {tp : Throttle}

theorem createThrottle_ok : (createThrottle c now).Ok c :=
  ⟨Nat.zero_le _, fun h => absurd rfl h⟩

theorem lengthAt_stage {n : ℕ} (hpos : 0 < n) (hle : n ≤ c.lengths.length) :
    lengthAt c ((n : ℤ) - 1) junk = (c.lengths.getD (n - 1) 0, false) := by
  have hindex : ((n : ℤ) - 1).toNat = n - 1 := by omega
  rw [lengthAt, if_pos (by omega), hindex]

theorem lengthAt_next {n : ℕ} (hlt : n < c.lengths.length) :
    lengthAt c n junk = (c.lengths.getD n 0, false) := by
  rw [lengthAt, if_pos (by omega), Int.toNat_natCast]

/-- A ban that is over is one whose length has passed, so another one is still in the record. -/
theorem countConnection_spec (h : tp.Ok c) :
    (countConnection c now junk tp).2 = false ∧ (countConnection c now junk tp).1.Ok c ∧
      (tp.banned ≠ 0 → now ≤ tp.banned + stageLength c tp →
        (countConnection c now junk tp).1.banned = tp.banned) := by
  obtain ⟨hle, hpos⟩ := h
  unfold countConnection
  dsimp only
  -- the first step changes neither the ban nor the stage
  generalize hfirst : (if c.span < now - tp.first then { tp with first := now, count := 0 }
    else tp) = tp'
  have hbanned : tp'.banned = tp.banned := by rw [← hfirst]; split <;> rfl
  have hstage : tp'.stage = tp.stage := by rw [← hfirst]; split <;> rfl
  by_cases hban : tp.banned = 0
  · have hzero : tp'.banned = 0 := hbanned.trans hban
    simp only [hzero, hban, ne_eq, not_true_eq_false, if_false, false_and]
    exact ⟨trivial, ⟨by rwa [hstage], fun h => absurd rfl h⟩, fun h => h.elim⟩
  · have hindex : lengthAt c ((tp.stage : ℤ) - 1) junk = (stageLength c tp, false) :=
      lengthAt_stage (hpos hban) hle
    simp only [hbanned, hstage, hindex, ne_eq, hban, not_false_eq_true, if_true, true_and]
    split
    next hover =>
      refine ⟨⟨hle, fun h => absurd rfl h⟩, fun _ hlen => ?_⟩
      omega
    next =>
      exact ⟨⟨by rwa [hstage], fun _ => by rw [hstage]; exact hpos hban⟩, fun _ _ => hbanned⟩

/-- The next stage is one of the table, and a ban keeps its start. -/
theorem escalate_spec (h : tp.Ok c) (hstages : 0 < c.lengths.length) :
    (escalate c now junk tp).2 = false ∧ (escalate c now junk tp).1.Ok c ∧
      (tp.banned ≠ 0 → (escalate c now junk tp).1.banned = tp.banned) := by
  obtain ⟨hle, -⟩ := h
  unfold escalate
  dsimp only
  generalize hbegin : (if tp.banned = 0 then { tp with banned := now, stage := 0 } else tp) = tp'
  have hle' : tp'.stage ≤ c.lengths.length := by
    rw [← hbegin]
    split
    · exact Nat.zero_le _
    · exact hle
  have hkeep : tp.banned ≠ 0 → tp'.banned = tp.banned := fun h => by rw [← hbegin, if_neg h]
  -- below the last stage it goes up by one, and at the last stage it stays
  generalize hup : (if tp'.stage < c.lengths.length then
    { tp' with first := 0, count := 0, stage := tp'.stage + 1 }
    else { tp' with first := 0, count := 0 }) = tp''
  have hbanned : tp''.banned = tp'.banned := by rw [← hup]; split <;> rfl
  have hstage : 0 < tp''.stage ∧ tp''.stage ≤ c.lengths.length := by
    rw [← hup]
    split
    next hlt => exact ⟨Nat.succ_pos _, hlt⟩
    next hlast => exact ⟨show 0 < tp'.stage by omega, hle'⟩
  rw [lengthAt_stage hstage.1 hstage.2]
  dsimp only
  refine ⟨rfl, ⟨?_, fun _ => ?_⟩, fun h => ?_⟩
  · split
    · exact hstage.2
    · exact hstage.2
  · split
    · exact hstage.1
    · exact hstage.1
  · split
    · exact hbanned.trans (hkeep h)
    · exact hbanned.trans (hkeep h)

/-- The hook of a connection uses indexes of the table, and refuses whoever is banned. -/
theorem stage1Hook_spec (h : tp.Ok c) (hstages : 0 < c.lengths.length) :
    (stage1Hook c now junk tp).2.2 = false ∧ (stage1Hook c now junk tp).2.1.Ok c ∧
      (tp.banned ≠ 0 → now ≤ tp.banned + stageLength c tp →
        (stage1Hook c now junk tp).1 = true ∧
          (stage1Hook c now junk tp).2.1.banned = tp.banned) := by
  obtain ⟨hcount, hok, hban⟩ := @countConnection_spec c now junk tp h
  unfold stage1Hook
  dsimp only
  by_cases hfew : (countConnection c now junk tp).1.count < c.conns
  · rw [if_pos hfew]
    refine ⟨hcount, hok, fun hbanned hlen => ?_⟩
    have hsame := hban hbanned hlen
    exact ⟨by simpa [hsame] using hbanned, hsame⟩
  · rw [if_neg hfew]
    obtain ⟨hcount', hok', hban'⟩ := @escalate_spec c now junk _ hok hstages
    refine ⟨by simp [hcount, hcount'], hok', fun hbanned hlen => ⟨rfl, ?_⟩⟩
    have hsame := hban hbanned hlen
    rw [hban' (by rwa [hsame]), hsame]

/-- Below the last stage the timer's index is one of the table. -/
theorem timerHook_next (hlt : tp.stage < c.lengths.length) :
    timerHook c now junk tp =
      (if now - tp.banned ≤ c.lengths.getD tp.stage 0 then
        some { tp with due := now + c.lengths.getD tp.stage 0 } else none, false) := by
  unfold timerHook
  rw [lengthAt_next hlt]

/-- At the last stage it is past the table. -/
theorem timerHook_strayed_iff (h : tp.Ok c) :
    (timerHook c now junk tp).2 = true ↔ tp.stage = c.lengths.length := by
  constructor
  · intro hstrayed
    have hle := h.stage_le
    by_contra hne
    rw [timerHook_next (by omega)] at hstrayed
    exact absurd hstrayed (by simp)
  · intro hlast
    have hout : ¬ ((tp.stage : ℤ) < c.lengths.length) := by omega
    simp [timerHook, lengthAt, hout]

end

/-! ### Steps -/

namespace ThrottleState

variable {Addr : Type}

/-- The invariant of the runs: the table is not empty, and the records are as they should be. -/
structure Inv (s : ThrottleState Addr) : Prop where
  stages_pos : 0 < s.conf.lengths.length
  ok : ∀ a tp, s.records a = some tp → tp.Ok s.conf
  sound : s.Sound

theorem inv_start (sec : ThrottleSection) : (start sec : ThrottleState Addr).Inv where
  stages_pos := by
    show 0 < (throttleConfHook sec).lengths.length
    rw [length_throttleConfHook]
    exact sec.stages_pos
  ok := fun a tp h => by cases h
  sound :=
    { inside := rfl
      kept := fun a ban h => by cases h
      refused := fun answer h => by cases h }

variable [DecidableEq Addr] {s s' : ThrottleState Addr}

theorem running_iff {now : ℤ} {ban : ℤ × ℤ} : running now ban = true ↔ now < ban.1 + ban.2 := by
  rw [running, decide_eq_true_iff]

/-- The ban of an address after a connection is the one in its record, if it kept one that is
running. -/
theorem nextBan_kept {c : ThrottleConf} {now : ℤ} {tp : Throttle} {ban : Option (ℤ × ℤ)}
    {r : ℤ × ℤ} (hkept : ∀ r ∈ ban, running now r = true → tp.banned ≠ 0 ∧ tp.banned = r.1)
    (hnext : nextBan c now tp ban = some r) :
    tp.banned ≠ 0 ∧ tp.banned = r.1 ∧ stageLength c tp = r.2 := by
  unfold nextBan at hnext
  split at hnext
  next old hold =>
    obtain ⟨hmem, hrunning⟩ := Option.filter_eq_some_iff.mp hold
    obtain ⟨hne, hsame⟩ := hkept old hmem hrunning
    obtain rfl := Option.some.inj hnext
    exact ⟨hne, hsame, rfl⟩
  next =>
    split at hnext
    · cases hnext
    next hne =>
      obtain rfl := Option.some.inj hnext
      exact ⟨hne, rfl, rfl⟩

/-- A connection keeps the invariant. -/
theorem Inv.connect {a : Addr} {now junk : ℤ} (h : s.Inv)
    (hstep : s.step (.connect a now junk) = some s') : s'.Inv := by
  simp only [step] at hstep
  split at hstep
  · cases hstep
  obtain rfl := Option.some.inj hstep
  have hok : ((s.records a).getD (createThrottle s.conf now)).Ok s.conf := by
    cases hrec : s.records a with
    | none => exact createThrottle_ok
    | some tp => exact h.ok a tp hrec
  obtain ⟨hinside, hok', hkept⟩ := @stage1Hook_spec s.conf now junk _ hok h.stages_pos
  generalize hr : stage1Hook s.conf now junk ((s.records a).getD (createThrottle s.conf now)) = r
    at hinside hok' hkept ⊢
  -- whoever has a ban that is running is refused, and the record keeps its start
  have hrunning : ∀ ban ∈ s.bans a, running now ban = true →
      r.1 = true ∧ r.2.1.banned ≠ 0 ∧ r.2.1.banned = ban.1 := by
    intro ban hban hrun
    obtain ⟨tp, hrec, hne, hbegan, hlen⟩ := h.sound.kept a ban hban
    have hnow := running_iff.mp hrun
    rw [hrec, Option.getD_some] at hkept
    obtain ⟨hrefused, hsame⟩ := hkept hne (by omega)
    exact ⟨hrefused, by rwa [hsame], hsame.trans hbegan⟩
  refine ⟨h.stages_pos, fun b tp hrec => ?_, ⟨?_, fun b ban hban => ?_, ?_⟩⟩
  · dsimp only at hrec
    by_cases hb : b = a
    · subst hb
      rw [Function.update_self] at hrec
      obtain rfl := Option.some.inj hrec
      exact hok'
    · rw [Function.update_of_ne hb] at hrec
      exact h.ok b tp hrec
  · show (s.strayed || r.2.2) = false
    rw [h.sound.inside, hinside]
    rfl
  · dsimp only at hban ⊢
    by_cases hb : b = a
    · subst hb
      rw [Function.update_self] at hban
      refine ⟨r.2.1, by rw [Function.update_self], ?_⟩
      exact nextBan_kept (fun ban hban hrun => (hrunning ban hban hrun).2) hban
    · rw [Function.update_of_ne hb] at hban ⊢
      exact h.sound.kept b ban hban
  · intro answer hmem hanswer
    rcases List.mem_cons.mp hmem with rfl | hold
    · obtain ⟨ban, hban, hrun⟩ := (Option.any_eq_true _ _).mp hanswer
      exact (hrunning ban hban hrun).1
    · exact h.sound.refused answer hold hanswer

/-- So does the expiry of a timer, below the last stage and unless the next one has passed first. -/
theorem Inv.expire {a : Addr} {now junk : ℤ} (h : s.Inv) (hsteady : s.Steady (.expire a now junk))
    (hstep : s.step (.expire a now junk) = some s') : s'.Inv := by
  simp only [step] at hstep
  cases hrec : s.records a with
  | none =>
    rw [hrec] at hstep
    cases hstep
  | some tp =>
    obtain ⟨hlt, hnext⟩ := hsteady tp hrec
    simp only [hrec, timerHook_next hlt] at hstep
    split at hstep
    · cases hstep
    obtain rfl := Option.some.inj hstep
    generalize htp : (if now - tp.banned ≤ s.conf.lengths.getD tp.stage 0 then
      some { tp with due := now + s.conf.lengths.getD tp.stage 0 } else none) = rest
    have hrest : ∀ tp' ∈ rest, tp'.stage = tp.stage ∧ tp'.banned = tp.banned := by
      intro tp' htp'
      rw [← htp] at htp'
      split at htp'
      · obtain rfl := Option.some.inj htp'
        exact ⟨rfl, rfl⟩
      · cases htp'
    refine ⟨h.stages_pos, fun b tp' hrec' => ?_, ⟨?_, fun b ban hban => ?_, h.sound.refused⟩⟩
    · dsimp only at hrec'
      by_cases hb : b = a
      · subst hb
        rw [Function.update_self] at hrec'
        obtain ⟨hstage, hbanned⟩ := hrest tp' hrec'
        obtain ⟨hle, hpos⟩ := h.ok b tp hrec
        exact ⟨by rwa [hstage], by rwa [hstage, hbanned]⟩
      · rw [Function.update_of_ne hb] at hrec'
        exact h.ok b tp' hrec'
    · show (s.strayed || false) = false
      rw [h.sound.inside]
      rfl
    · dsimp only at hban ⊢
      by_cases hb : b = a
      · subst hb
        rw [Function.update_self] at hban
        obtain ⟨hmem, hrun⟩ := Option.filter_eq_some_iff.mp hban
        obtain ⟨tp', hrec', hne, hbegan, hlen⟩ := h.sound.kept b ban hmem
        obtain rfl : tp = tp' := Option.some.inj (hrec.symm.trans hrec')
        -- the ban is running, so the next stage has not passed either
        have hnow := running_iff.mp hrun
        have hlonger := hnext hne (by omega)
        have hkeep : now - tp.banned ≤ s.conf.lengths.getD tp.stage 0 := by omega
        rw [if_pos hkeep] at htp
        subst htp
        exact ⟨{ tp with due := now + s.conf.lengths.getD tp.stage 0 },
          by rw [Function.update_self], hne, hbegan, hlen⟩
      · rw [Function.update_of_ne hb] at hban ⊢
        exact h.sound.kept b ban hban

/-- A rehash leaves no record and no ban. -/
theorem Inv.rehash {sec : ThrottleSection} (h : s.Inv)
    (hstep : s.step (.rehash sec) = some s') : s'.Inv := by
  obtain rfl := Option.some.inj hstep
  have hfresh := @inv_start Addr sec
  exact ⟨hfresh.stages_pos, hfresh.ok, h.sound.inside, hfresh.sound.kept, h.sound.refused⟩

theorem Inv.step {action : ThrottleAction Addr} (h : s.Inv) (hsteady : s.Steady action)
    (hstep : s.step action = some s') : s'.Inv := by
  cases action with
  | connect a now junk => exact h.connect hstep
  | expire a now junk => exact h.expire hsteady hstep
  | rehash sec => exact h.rehash hstep

/-- The defaults. -/
def defaultSection : ThrottleSection where
  conns := 3
  span := 15
  stages := 5
  cache := 3600
  times := []
  stages_pos := by decide

/-- An address that connects four times, and whose timer goes off an hour later. -/
def fastAddress : List (ThrottleAction Unit) :=
  [.connect () 100 0, .connect () 101 0, .connect () 102 0, .connect () 150 0,
    .expire () 3700 0]

end ThrottleState

end Ithildin
