import Ithildin.Connection.Lookups
import Mathlib.Tactic.Common

/-!
# Stage 2 once

The hooks and `connection_init_lookups` go on with a connection, and the loop with the one it has
saved, as the calls return that may have settled them.

* `State.Safe`: `connection_stage2_done` has run at most once for each connection, and nothing has
  been touched that was not there;
* `Meets`: no answer settles what a call that has not returned will go on with;
* `Inv`: the invariant of such steps;
* `Doomed`: a call that has not returned goes on with a connection that is settled;
* `once_of_run`: exactly which runs are safe.
-/

namespace Ithildin

namespace Connections

/-- The connection that a call goes on with as it returns. -/
def Frame.conn : Frame → Option ℕ
  | .walk _ _ => none
  | .resolving _ c _ | .lookingUp c | .identifying c => some c

/-- The connection that a loop goes on with. -/
def Frame.saved : Frame → Option ℕ
  | .walk _ c | .resolving _ _ c => c
  | _ => none

namespace State

variable (s : State)

/-- The connections for which `connection_stage2_done` was run. -/
def ids : List ℕ := s.passed.map Prod.fst

/-- Once each, and nothing that is not there. -/
def Safe : Prop := s.fault = false ∧ s.ids.Nodup

/-- On one of the two lists. -/
def Listed (c : ℕ) : Prop := c ∈ s.stage1 ∨ c ∈ s.stage2

/-- In memory, and not yet settled. -/
def Unsettled (c : ℕ) : Prop := (s.mem c).isSome ∧ c ∉ s.ids

end State

/-- With an action that settles a connection, no call that has not returned goes on with it, nor
does a loop if it is refused; and a handshake ends for a connection of stage 1. -/
structure Meets (okay : HostMap) (s : State) (a : Action) : Prop where
  settles : ∀ t c, s.part okay a = some (t, some c) → (t.mem c).any Connection.isDone = true →
    ∀ f ∈ t.frames, f.conn ≠ some c ∧ (a.refuses = true → f.saved ≠ some c)
  handshake : ∀ c refuse, a = .handshake c refuse → c ∈ s.stage1

/-! ### What holds in every run -/

/-- What every step keeps: connections have numbers that were given, and those that were settled
have all their lookups done. -/
structure State.Base (s : State) : Prop where
  fresh : ∀ c, (s.mem c).isSome → c < s.next
  numbered : ∀ c ∈ s.ids, c < s.next
  done : ∀ c ∈ s.ids, ∀ conn, s.mem c = some conn → conn.isDone = true
  stage2 : ∀ c conn, s.mem c = some conn → conn.stage2 = false

/-- What stays so: numbers given, connections settled, and connections that are gone. -/
structure State.Later (s t : State) : Prop where
  next : s.next ≤ t.next
  ids : ∀ c ∈ s.ids, c ∈ t.ids
  gone : ∀ c < s.next, s.mem c = none → t.mem c = none

section
variable {okay : HostMap} {s t : State} {c : ℕ} {conn : Connection}

theorem State.Later.refl (s : State) : s.Later s := ⟨le_rfl, fun _ h => h, fun _ _ h => h⟩

theorem State.Later.trans {u : State} (h : s.Later t) (h' : t.Later u) : s.Later u where
  next := h.next.trans h'.next
  ids := fun c hc => h'.ids c (h.ids c hc)
  gone := fun c hc hnone => h'.gone c (hc.trans_le h.next) (h.gone c hc hnone)

/-- Two states with the same memory, numbers and settled connections. -/
structure State.Alike (s t : State) : Prop where
  mem : t.mem = s.mem
  next : t.next = s.next
  passed : t.passed = s.passed

theorem State.Alike.refl (s : State) : s.Alike s := ⟨rfl, rfl, rfl⟩

theorem State.Alike.ids (h : s.Alike t) : t.ids = s.ids := congrArg (List.map Prod.fst) h.passed

theorem State.Alike.base (h : s.Alike t) (hs : s.Base) : t.Base where
  fresh := by rw [h.mem, h.next]; exact hs.fresh
  numbered := by rw [h.ids, h.next]; exact hs.numbered
  done := by rw [h.ids, h.mem]; exact hs.done
  stage2 := by rw [h.mem]; exact hs.stage2

theorem State.Alike.later (h : s.Alike t) : s.Later t where
  next := h.next.ge
  ids := by rw [h.ids]; exact fun _ hc => hc
  gone := by rw [h.mem]; exact fun _ _ hc => hc

theorem State.broken_alike (s : State) : s.Alike s.broken := ⟨rfl, rfl, rfl⟩

theorem State.frames_alike (s : State) (fs : List Frame) : s.Alike { s with frames := fs } :=
  ⟨rfl, rfl, rfl⟩

theorem State.checkIdent_alike (s : State) (c : ℕ) : s.Alike (s.checkIdent c).1 := by
  unfold State.checkIdent
  split
  · exact ⟨rfl, rfl, rfl⟩
  · split <;> exact ⟨rfl, rfl, rfl⟩

theorem State.initLookups_alike (s : State) (c : ℕ) : s.Alike (s.initLookups c).1 := by
  unfold State.initLookups
  split
  · exact ⟨rfl, rfl, rfl⟩
  · split
    · exact s.checkIdent_alike c
    · exact ⟨rfl, rfl, rfl⟩

/-- A connection is written to that keeps its lookups done. -/
theorem State.Base.write (hs : s.Base) (hc : s.mem c = some conn) {conn' : Connection}
    (hdone : conn.isDone = true → conn'.isDone = true) (hstage2 : conn'.stage2 = conn.stage2) :
    (s.write c conn').Base where
  fresh := by
    intro j hj
    by_cases hjc : j = c
    · exact hjc ▸ hs.fresh c (by rw [hc]; rfl)
    · refine hs.fresh j ?_
      simpa [State.write, Function.update_of_ne hjc] using hj
  numbered := hs.numbered
  done := by
    intro j hj b hb
    by_cases hjc : j = c
    · subst hjc
      obtain rfl : conn' = b := by simpa [State.write] using hb
      exact hdone (hs.done j hj conn hc)
    · refine hs.done j hj b ?_
      simpa [State.write, Function.update_of_ne hjc] using hb
  stage2 := by
    intro j b hb
    by_cases hjc : j = c
    · subst hjc
      obtain rfl : conn' = b := by simpa [State.write] using hb
      exact hstage2.trans (hs.stage2 j conn hc)
    · refine hs.stage2 j b ?_
      simpa [State.write, Function.update_of_ne hjc] using hb

theorem State.Later.write (hc : s.mem c = some conn) (conn' : Connection) :
    s.Later (s.write c conn') where
  next := le_rfl
  ids := fun _ h => h
  gone := by
    intro j _ hnone
    have hjc : j ≠ c := by
      rintro rfl
      rw [hc] at hnone
      cases hnone
    exact (Function.update_of_ne hjc _ _).trans hnone

/-- A connection gets the next number. -/
theorem State.Base.new (hs : s.Base) (hstage2 : conn.stage2 = false)
    (hmem : t.mem = Function.update s.mem s.next (some conn)) (hnext : t.next = s.next + 1)
    (hpassed : t.passed = s.passed) : t.Base := by
  have hids : t.ids = s.ids := congrArg (List.map Prod.fst) hpassed
  constructor
  case fresh =>
    intro j hj
    rw [hnext]
    by_cases hjn : j = s.next
    · exact hjn ▸ Nat.lt_succ_self _
    · rw [hmem, Function.update_of_ne hjn] at hj
      exact (hs.fresh j hj).trans (Nat.lt_succ_self _)
  case numbered =>
    intro j hj
    rw [hids] at hj
    rw [hnext]
    exact (hs.numbered j hj).trans (Nat.lt_succ_self _)
  case done =>
    intro j hj b hb
    rw [hids] at hj
    rw [hmem, Function.update_of_ne (hs.numbered j hj).ne] at hb
    exact hs.done j hj b hb
  case stage2 =>
    intro j b hb
    rw [hmem] at hb
    by_cases hjn : j = s.next
    · subst hjn
      rw [Function.update_self] at hb
      exact Option.some.inj hb ▸ hstage2
    · rw [Function.update_of_ne hjn] at hb
      exact hs.stage2 j b hb

theorem State.Later.new (hmem : t.mem = Function.update s.mem s.next (some conn))
    (hnext : t.next = s.next + 1) (hpassed : t.passed = s.passed) : s.Later t where
  next := hnext ▸ Nat.le_succ _
  ids := by
    have hids : t.ids = s.ids := congrArg (List.map Prod.fst) hpassed
    rw [hids]
    exact fun _ hc => hc
  gone := by
    intro j hj hnone
    rw [hmem, Function.update_of_ne hj.ne]
    exact hnone

theorem State.Base.destroy (hs : s.Base) (c : ℕ) : (s.destroy c).Base := by
  have hmem : ∀ j conn, (s.destroy c).mem j = some conn → s.mem j = some conn := by
    intro j conn hj
    have hjc : j ≠ c := by
      rintro rfl
      simp [State.destroy] at hj
    simpa [State.destroy, Function.update_of_ne hjc] using hj
  constructor
  case fresh =>
    intro j hj
    obtain ⟨conn, hconn⟩ := Option.isSome_iff_exists.mp hj
    exact hs.fresh j (by rw [hmem j conn hconn]; rfl)
  case numbered => exact hs.numbered
  case done => exact fun j hj conn hconn => hs.done j hj conn (hmem j conn hconn)
  case stage2 => exact fun j conn hconn => hs.stage2 j conn (hmem j conn hconn)

theorem State.Later.destroy (s : State) (c : ℕ) : s.Later (s.destroy c) where
  next := le_rfl
  ids := fun _ h => h
  gone := by
    intro j _ hnone
    by_cases hjc : j = c
    · subst hjc
      exact Function.update_self _ _ _
    · exact (Function.update_of_ne hjc _ _).trans hnone

theorem State.destroy_mem_self (s : State) (c : ℕ) : (s.destroy c).mem c = none :=
  Function.update_self _ _ _

/-- What a turn of the loop keeps of a connection. -/
structure Connection.Kept (conn conn' : Connection) : Prop where
  done : conn.isDone = true → conn'.isDone = true
  stage2 : conn'.stage2 = conn.stage2
  ident : conn'.ident = conn.ident
  sslInit : conn'.sslInit = conn.sslInit

theorem DnsLookup.settled_kept {dlp : DnsLookup} {conn' : Connection}
    (h : dlp.outcome conn okay = some (.settled conn')) : conn.Kept conn' := by
  unfold DnsLookup.outcome at h
  split at h
  · unfold DnsLookup.reverse at h
    split at h
    · cases h
    · split at h
      · cases h
        exact ⟨by simp [Connection.isDone], rfl, rfl, rfl⟩
      · split at h
        · cases h
          exact ⟨by simp [Connection.isDone], rfl, rfl, rfl⟩
        · obtain ⟨txt, -, htxt⟩ := Option.map_eq_some_iff.mp h
          cases htxt
  · unfold DnsLookup.forward at h
    split at h
    · cases h
    · split at h
      · cases h
        exact ⟨by simp [Connection.isDone], rfl, rfl, rfl⟩
      · cases h
        refine ⟨?_, rfl, rfl, rfl⟩
        simp only [Connection.isDone, Bool.and_eq_true]
        exact fun hdone => ⟨⟨hdone.1.1, trivial⟩, hdone.2⟩

/-- Only a reverse lookup of a connection without a lookup done goes on with a forward one. -/
theorem DnsLookup.asks_kept {dlp : DnsLookup} {conn' : Connection}
    (h : dlp.outcome conn okay = some (.asks conn')) :
    dlp.type = DNS_T_PTR ∧ conn.dns = false ∧ conn.Kept conn' := by
  unfold DnsLookup.outcome at h
  split at h
  · rename_i htype
    unfold DnsLookup.reverse at h
    split at h
    · cases h
    · rename_i hskip
      rw [not_or] at hskip
      split at h
      · cases h
      · split at h
        · cases h
        · obtain ⟨txt, -, htxt⟩ := Option.map_eq_some_iff.mp h
          cases htxt
          refine ⟨htype, Bool.eq_false_iff.mpr hskip.1, ?_, rfl, rfl, rfl⟩
          intro hdone
          simp only [Connection.isDone, Bool.and_eq_true] at hdone
          exact absurd (by simp [Connection.dns, hdone.1.1]) hskip.1
  · unfold DnsLookup.forward at h
    split at h
    · cases h
    · split at h <;> cases h

/-- A connection with its lookups done is skipped by reverse ones. -/
theorem DnsLookup.skipped_of_done {dlp : DnsLookup} (htype : dlp.type = DNS_T_PTR)
    (hdone : conn.isDone = true) : dlp.outcome conn okay = some .skipped := by
  have hdns : conn.dns = true := by
    simp only [Connection.isDone, Bool.and_eq_true] at hdone
    simp [Connection.dns, hdone.1.1]
  rw [DnsLookup.outcome, if_pos htype, DnsLookup.reverse, if_pos (.inl hdns)]

/-- What an action up to its last line does to the memory. -/
structure State.Advance (s t : State) : Prop where
  base : t.Base
  later : s.Later t
  passed : t.passed = s.passed

theorem State.Alike.advance (h : s.Alike t) (hs : s.Base) : s.Advance t :=
  ⟨h.base hs, h.later, h.passed⟩

theorem State.Advance.alike {u : State} (h : s.Advance t) (h' : t.Alike u) : s.Advance u :=
  ⟨h'.base h.base, h.later.trans h'.later, h'.passed.trans h.passed⟩

theorem State.Base.advance_write (hs : s.Base) (hc : s.mem c = some conn) {conn' : Connection}
    (hdone : conn.isDone = true → conn'.isDone = true) (hstage2 : conn'.stage2 = conn.stage2) :
    s.Advance (s.write c conn') :=
  ⟨hs.write hc hdone hstage2, .write hc conn', rfl⟩

theorem State.Base.advance_new (hs : s.Base) (hstage2 : conn.stage2 = false)
    (hmem : t.mem = Function.update s.mem s.next (some conn)) (hnext : t.next = s.next + 1)
    (hpassed : t.passed = s.passed) : s.Advance t :=
  ⟨hs.new hstage2 hmem hnext hpassed, .new hmem hnext hpassed, hpassed⟩

theorem State.Base.advance_listen (hs : s.Base) (peer : Peer) (stage1 : Option (Bool × Bool))
    (ssl : Bool) : s.Advance (s.listen peer stage1 ssl).1 := by
  cases stage1 with
  | none =>
    refine ⟨⟨?_, ?_, hs.done, hs.stage2⟩, ⟨Nat.le_succ _, fun _ hc => hc, fun _ _ hc => hc⟩, rfl⟩
    · exact fun c hc => (hs.fresh c hc).trans (Nat.lt_succ_self _)
    · exact fun c hc => (hs.numbered c hc).trans (Nat.lt_succ_self _)
  | some skips =>
    have hnew : ∀ conn : Connection, conn.stage2 = false → s.Advance
        { s.write s.next conn with next := s.next + 1, stage1 := s.next :: s.stage1 } :=
      fun conn hconn => hs.advance_new hconn rfl rfl rfl
    unfold State.listen
    dsimp only
    split
    · exact hnew _ rfl
    · exact (hnew _ rfl).alike (State.initLookups_alike _ _)

theorem State.Base.advance_handshake {p : State.Part} (hs : s.Base)
    (h : s.handshake c = some p) : s.Advance p.1 := by
  obtain ⟨conn, hconn, hp⟩ := Option.bind_eq_some_iff.mp h
  split at hp
  · obtain rfl := Option.some.inj hp
    have hwrite : s.Advance (s.write c { conn with sslInit := false }) :=
      hs.advance_write hconn (fun hdone => hdone) rfl
    exact hwrite.alike (State.initLookups_alike _ _)
  · cases hp

theorem State.Base.advance_lookupTurn {dlp : DnsLookup} {fs : List Frame} {p : State.Part}
    (hs : s.Base) (h : s.lookupTurn c okay dlp fs = some p) : s.Advance p.1 := by
  unfold State.lookupTurn at h
  split at h
  · obtain rfl := Option.some.inj h
    exact State.Alike.advance ⟨rfl, rfl, rfl⟩ hs
  · rename_i conn hconn
    obtain ⟨outcome, houtcome, rfl⟩ := Option.map_eq_some_iff.mp h
    cases outcome with
    | skipped => exact State.Alike.advance ⟨rfl, rfl, rfl⟩ hs
    | settled conn' =>
      have hkept := DnsLookup.settled_kept houtcome
      exact (hs.advance_write hconn hkept.done hkept.stage2).alike ⟨rfl, rfl, rfl⟩
    | asks conn' =>
      obtain ⟨-, -, hkept⟩ := DnsLookup.asks_kept houtcome
      exact (hs.advance_write hconn hkept.done hkept.stage2).alike ⟨rfl, rfl, rfl⟩

theorem State.Base.advance_returned {p : State.Part} (hs : s.Base) (h : s.returned = some p) :
    s.Advance p.1 := by
  unfold State.returned at h
  split at h
  · obtain rfl := Option.some.inj h
    exact State.Alike.advance ⟨rfl, rfl, rfl⟩ hs
  · rename_i c fs hframes
    obtain rfl := Option.some.inj h
    exact ((s.frames_alike fs).advance hs).alike (State.checkIdent_alike _ _)
  · obtain rfl := Option.some.inj h
    exact State.Alike.advance ⟨rfl, rfl, rfl⟩ hs
  · cases h

theorem State.Base.advance_identHook (hs : s.Base) (sock : ℕ) (answer : Bytes) :
    s.Advance (s.identHook sock answer).1 := by
  unfold State.identHook
  split
  · exact (State.Alike.refl s).advance hs
  · split
    · exact State.Alike.advance ⟨rfl, rfl, rfl⟩ hs
    · rename_i conn hconn
      refine hs.advance_write hconn (fun hdone => ?_) rfl
      simp only [Connection.isDone, Bool.and_eq_true] at hdone
      simp [Connection.isDone, hdone.1.1, hdone.1.2]

theorem State.Base.part {a : Action} {p : State.Part} (hs : s.Base) (h : s.part okay a = some p) :
    s.Advance p.1 := by
  cases a with
  | accept peer stage1 ssl refuse =>
    obtain ⟨-, rfl⟩ := Option.ite_some_none_eq_some.mp h
    exact hs.advance_listen peer stage1 ssl
  | handshake c refuse => exact hs.advance_handshake (Option.ite_none_right_eq_some.mp h).2
  | answer dlp =>
    obtain ⟨-, rfl⟩ := Option.ite_some_none_eq_some.mp h
    exact State.Alike.advance ⟨rfl, rfl, rfl⟩ hs
  | next refuse =>
    simp only [State.part] at h
    split at h
    · obtain rfl := Option.some.inj h
      exact State.Alike.advance ⟨rfl, rfl, rfl⟩ hs
    · exact hs.advance_lookupTurn h
    · cases h
  | ret refuse => exact hs.advance_returned h
  | ident sock answer refuse =>
    obtain ⟨-, rfl⟩ := Option.ite_some_none_eq_some.mp h
    exact hs.advance_identHook sock answer
  | close c =>
    obtain ⟨-, rfl⟩ := Option.ite_some_none_eq_some.mp h
    exact ⟨hs.destroy c, .destroy s c, rfl⟩
  | register c =>
    obtain ⟨-, rfl⟩ := Option.ite_some_none_eq_some.mp h
    exact State.Alike.advance ⟨rfl, rfl, rfl⟩ hs
  | link peer =>
    obtain ⟨-, rfl⟩ := Option.ite_some_none_eq_some.mp h
    exact hs.advance_new rfl rfl rfl rfl

/-! ### The test at the end -/

theorem State.test_of_mem (hc : s.mem c = some conn) (refuse : Bool) :
    s.test c refuse =
      if conn.isDone ∧ conn.needStage2 then s.stage2Done c conn refuse else s := by
  rw [State.test, hc]

theorem State.stage2Done_ids (s : State) (c : ℕ) (conn : Connection) (refuse : Bool) :
    (s.stage2Done c conn refuse).ids = c :: s.ids := by
  unfold State.stage2Done
  dsimp only
  split <;> rfl

theorem State.stage2Done_frames (s : State) (c : ℕ) (conn : Connection) (refuse : Bool) :
    (s.stage2Done c conn refuse).frames = s.frames := by
  unfold State.stage2Done
  dsimp only
  split <;> rfl

theorem State.stage2Done_mem (s : State) (c : ℕ) (conn : Connection) (refuse : Bool) :
    (s.stage2Done c conn refuse).mem =
      if refuse = true then Function.update s.mem c none else s.mem := by
  unfold State.stage2Done
  dsimp only
  split <;> rfl

theorem State.stage2Done_next (s : State) (c : ℕ) (conn : Connection) (refuse : Bool) :
    (s.stage2Done c conn refuse).next = s.next := by
  unfold State.stage2Done
  dsimp only
  split <;> rfl

/-- What is in memory after `connection_stage2_done` was there before. -/
theorem State.mem_of_stage2Done {refuse : Bool} {j : ℕ} {conn' : Connection}
    (h : (s.stage2Done c conn refuse).mem j = some conn') : s.mem j = some conn' := by
  rw [State.stage2Done_mem] at h
  split at h
  · rw [Function.update_apply] at h
    split at h
    · cases h
    · exact h
  · exact h

theorem State.Base.stage2Done (hs : s.Base) (hc : s.mem c = some conn) (hdone : conn.isDone = true)
    (refuse : Bool) : (s.stage2Done c conn refuse).Base where
  fresh := by
    intro j hj
    obtain ⟨conn', hconn'⟩ := Option.isSome_iff_exists.mp hj
    rw [State.stage2Done_next]
    exact hs.fresh j (by rw [State.mem_of_stage2Done hconn']; rfl)
  numbered := by
    rw [State.stage2Done_ids, State.stage2Done_next]
    intro j hj
    rcases List.mem_cons.mp hj with rfl | hj
    · exact hs.fresh j (by rw [hc]; rfl)
    · exact hs.numbered j hj
  done := by
    rw [State.stage2Done_ids]
    intro j hj conn' hconn'
    have hmem := State.mem_of_stage2Done hconn'
    rcases List.mem_cons.mp hj with rfl | hj
    · rw [hc] at hmem
      exact Option.some.inj hmem ▸ hdone
    · exact hs.done j hj conn' hmem
  stage2 := fun j conn' hconn' => hs.stage2 j conn' (State.mem_of_stage2Done hconn')

theorem State.Later.stage2Done (s : State) (c : ℕ) (conn : Connection) (refuse : Bool) :
    s.Later (s.stage2Done c conn refuse) where
  next := (State.stage2Done_next s c conn refuse).ge
  ids := by
    rw [State.stage2Done_ids]
    exact fun _ hc => List.mem_cons_of_mem c hc
  gone := by
    intro j _ hnone
    by_contra hsome
    obtain ⟨conn', hconn'⟩ := Option.ne_none_iff_exists'.mp hsome
    rw [State.mem_of_stage2Done hconn'] at hnone
    cases hnone

theorem State.Base.test (hs : s.Base) (c : ℕ) (refuse : Bool) :
    (s.test c refuse).Base ∧ s.Later (s.test c refuse) ∧ (s.test c refuse).frames = s.frames := by
  unfold State.test
  split
  · exact ⟨s.broken_alike.base hs, s.broken_alike.later, rfl⟩
  · rename_i conn hconn
    split
    · rename_i hdone
      exact ⟨hs.stage2Done hconn hdone.1 refuse, .stage2Done s c conn refuse,
        State.stage2Done_frames s c conn refuse⟩
    · exact ⟨hs, .refl s, rfl⟩

theorem State.Base.finish {p : State.Part} (hs : p.1.Base) (refuse : Bool) :
    (State.finish refuse p).Base ∧ p.1.Later (State.finish refuse p) ∧
      (State.finish refuse p).frames = p.1.frames := by
  obtain ⟨t, tested⟩ := p
  cases tested with
  | none => exact ⟨hs, .refl t, rfl⟩
  | some c => exact State.Base.test hs c refuse

theorem State.step_cases {a : Action} {s' : State} (h : s.step okay a = some s') :
    s.fault = false ∧ ∃ p, s.part okay a = some p ∧ s' = State.finish a.refuses p := by
  unfold State.step at h
  split at h
  · cases h
  · rename_i hfault
    obtain ⟨p, hp, rfl⟩ := Option.map_eq_some_iff.mp h
    exact ⟨Bool.eq_false_iff.mpr hfault, p, hp, rfl⟩

/-! ### Calls that go on with what is settled -/

/-- The connection a call goes on with is settled, or the one a loop goes on with is gone. -/
def Frame.Doomed (s : State) (f : Frame) : Prop :=
  (∃ c, f.conn = some c ∧ c ∈ s.ids) ∨ ∃ c, f.saved = some c ∧ c < s.next ∧ s.mem c = none

/-- Some call that has not returned will go on with such a connection. -/
structure State.Doomed (s : State) : Prop where
  base : s.Base
  frame : ∃ f ∈ s.frames, f.Doomed s

theorem Frame.Doomed.later {f : Frame} (h : f.Doomed s) (hst : s.Later t) : f.Doomed t := by
  rcases h with ⟨c, hconn, hc⟩ | ⟨c, hsaved, hlt, hc⟩
  · exact .inl ⟨c, hconn, hst.ids c hc⟩
  · exact .inr ⟨c, hsaved, hlt.trans_le hst.next, hst.gone c hlt hc⟩

/-- The test of a connection that is settled runs `connection_stage2_done` again, or touches what is
not there. -/
theorem State.Base.not_safe_test (hs : s.Base) (hc : c ∈ s.ids) (refuse : Bool) :
    ¬ (s.test c refuse).Safe := by
  unfold State.test
  split
  · rintro ⟨hfault, -⟩
    cases hfault
  · rename_i conn hconn
    have hneed : conn.needStage2 = true := by simp [Connection.needStage2, hs.stage2 c conn hconn]
    rw [if_pos ⟨hs.done c hc conn hconn, hneed⟩]
    rintro ⟨-, hnodup⟩
    rw [State.stage2Done_ids, List.nodup_cons] at hnodup
    exact hnodup.1 hc

theorem State.Base.not_safe_checkIdent (hs : s.Base) (hc : c ∈ s.ids) (refuse : Bool) :
    ¬ (State.finish refuse (s.checkIdent c)).Safe := by
  unfold State.checkIdent
  split
  · rintro ⟨hfault, -⟩
    cases hfault
  · rename_i conn hconn
    have hdone := hs.done c hc conn hconn
    simp only [Connection.isDone, Bool.and_eq_true] at hdone
    rw [if_pos hdone.2]
    exact hs.not_safe_test hc refuse

theorem State.Base.not_safe_initLookups (hs : s.Base) (hc : c ∈ s.ids) (refuse : Bool) :
    ¬ (State.finish refuse (s.initLookups c)).Safe := by
  unfold State.initLookups
  split
  · rintro ⟨hfault, -⟩
    cases hfault
  · rename_i conn hconn
    have hdone := hs.done c hc conn hconn
    simp only [Connection.isDone, Bool.and_eq_true] at hdone
    rw [if_pos (by simp [Connection.dns, hdone.1.1])]
    exact hs.not_safe_checkIdent hc refuse

theorem State.mem_checkIdent_frames {f : Frame} (hf : f ∈ s.frames) :
    f ∈ (s.checkIdent c).1.frames := by
  unfold State.checkIdent
  split
  · exact hf
  · split
    · exact hf
    · exact List.mem_cons_of_mem _ hf

theorem State.mem_identHook_frames {f : Frame} (hf : f ∈ s.frames) (sock : ℕ) (answer : Bytes) :
    f ∈ (s.identHook sock answer).1.frames := by
  unfold State.identHook
  split
  · exact hf
  · split <;> exact hf

theorem State.mem_lookupTurn_frames {f : Frame} {dlp : DnsLookup} {fs : List Frame}
    {p : State.Part} (h : s.lookupTurn c okay dlp fs = some p) (hf : f ∈ fs)
    (hfs : f ∈ s.frames) : f ∈ p.1.frames := by
  unfold State.lookupTurn at h
  split at h
  · obtain rfl := Option.some.inj h
    exact hfs
  · obtain ⟨outcome, -, rfl⟩ := Option.map_eq_some_iff.mp h
    cases outcome <;> exact List.mem_cons_of_mem _ hf

/-- A call that will go on with what is settled or gone does, or stays on the stack. -/
theorem State.Doomed.step {a : Action} {s' : State} (hs : s.Doomed) (h : s.step okay a = some s')
    (hsafe : s'.Safe) : s'.Doomed := by
  obtain ⟨hbase, f, hf, hdoomed⟩ := hs
  obtain ⟨-, p, hp, rfl⟩ := State.step_cases h
  have hadvance := hbase.part hp
  obtain ⟨hbase', hlater, hframes⟩ := hadvance.base.finish a.refuses
  have hstays : ∀ g ∈ p.1.frames, g.Doomed s →
      (State.finish a.refuses p).Doomed := by
    intro g hg hgd
    exact ⟨hbase', g, hframes ▸ hg, (hgd.later hadvance.later).later hlater⟩
  have hidle : s.frames.isEmpty ≠ true := by
    intro hempty
    rw [List.isEmpty_iff.mp hempty] at hf
    cases hf
  cases a with
  | accept peer stage1 ssl refuse => exact absurd (Option.ite_some_none_eq_some.mp hp).1 hidle
  | handshake c refuse => exact absurd (Option.ite_none_right_eq_some.mp hp).1 hidle
  | close c => exact absurd (Option.ite_some_none_eq_some.mp hp).1.1 hidle
  | register c => exact absurd (Option.ite_some_none_eq_some.mp hp).1.1 hidle
  | link peer => exact absurd (Option.ite_some_none_eq_some.mp hp).1 hidle
  | answer dlp =>
    obtain ⟨-, rfl⟩ := Option.ite_some_none_eq_some.mp hp
    exact hstays f (List.mem_cons_of_mem _ hf) hdoomed
  | ident sock answer refuse =>
    obtain ⟨-, rfl⟩ := Option.ite_some_none_eq_some.mp hp
    exact hstays f (State.mem_identHook_frames hf sock answer) hdoomed
  | next refuse =>
    simp only [State.part] at hp
    split at hp
    · rename_i dlp fs hstack
      obtain rfl := Option.some.inj hp
      rw [hstack] at hf
      rcases List.mem_cons.mp hf with rfl | hf
      · rcases hdoomed with ⟨c, hc, -⟩ | ⟨c, hc, -⟩ <;> cases hc
      · exact hstays f hf hdoomed
    · rename_i dlp c fs hstack
      have hf' := hf
      rw [hstack] at hf'
      rcases List.mem_cons.mp hf' with rfl | hfs
      · -- the loop comes to a connection that is gone
        rcases hdoomed with ⟨c, hc, -⟩ | ⟨c, hc, -, hnone⟩
        · cases hc
        · obtain rfl := Option.some.inj hc
          rw [State.lookupTurn, hnone] at hp
          obtain rfl := Option.some.inj hp
          cases hsafe.1
      · exact hstays f (State.mem_lookupTurn_frames hp hfs hf) hdoomed
    · cases hp
  | ret refuse =>
    simp only [State.part, State.returned] at hp
    split at hp
    · rename_i dlp c c2 fs hstack
      obtain rfl := Option.some.inj hp
      rw [hstack] at hf
      rcases List.mem_cons.mp hf with rfl | hf
      · rcases hdoomed with ⟨d, hd, hids⟩ | hgone
        · obtain rfl := Option.some.inj hd
          exact absurd hsafe (hadvance.base.not_safe_test hids refuse)
        · exact hstays (.walk dlp c2) List.mem_cons_self (.inr hgone)
      · exact hstays f (List.mem_cons_of_mem _ hf) hdoomed
    · rename_i c fs hstack
      obtain rfl := Option.some.inj hp
      have hpop := (s.frames_alike fs).base hbase
      rw [hstack] at hf
      rcases List.mem_cons.mp hf with rfl | hf
      · rcases hdoomed with ⟨d, hd, hids⟩ | ⟨d, hd, -⟩
        · obtain rfl := Option.some.inj hd
          exact absurd hsafe (hpop.not_safe_checkIdent hids refuse)
        · cases hd
      · exact hstays f (@State.mem_checkIdent_frames { s with frames := fs } c f hf) hdoomed
    · rename_i c fs hstack
      obtain rfl := Option.some.inj hp
      rw [hstack] at hf
      rcases List.mem_cons.mp hf with rfl | hf
      · rcases hdoomed with ⟨d, hd, hids⟩ | ⟨d, hd, -⟩
        · obtain rfl := Option.some.inj hd
          exact absurd hsafe (hadvance.base.not_safe_test hids refuse)
        · cases hd
      · exact hstays f hf hdoomed
    · cases hp

/-! ### The invariant of steps that meet the condition -/

/-- What is on the stack goes on with connections that are there: calls with unsettled ones, loops
with ones on the lists, and those over forward lookups with ones of stage 1. -/
def State.FrameOk (s : State) : Frame → Prop
  | .walk dlp c => ∀ c' ∈ c, s.Listed c' ∧ (dlp.type ≠ DNS_T_PTR → c' ∈ s.stage1)
  | .resolving dlp c c2 => dlp.type = DNS_T_PTR ∧ s.Unsettled c ∧ ∀ c' ∈ c2, s.Listed c'
  | .lookingUp c | .identifying c => s.Unsettled c

/-- Nothing has gone wrong. -/
structure State.Inv (s : State) : Prop where
  base : s.Base
  sound : s.fault = false
  listed : ∀ c, s.Listed c → (s.mem c).isSome
  nodup1 : s.stage1.Nodup
  nodup2 : s.stage2.Nodup
  apart : ∀ c ∈ s.stage1, c ∉ s.stage2
  once : s.ids.Nodup
  waiting : ∀ c ∈ s.stage1, c ∉ s.ids
  /-- A connection of `server_connect`. -/
  linked : ∀ c conn, s.mem c = some conn → c ∉ s.stage1 → c ∉ s.ids →
    conn.ident = false ∧ conn.sslInit = false
  frames : ∀ f ∈ s.frames, s.FrameOk f
  /-- Only the innermost call may be a loop that is running. -/
  calls : ∀ f ∈ s.frames.tail, f.conn.isSome

theorem State.inv_start : State.start.Inv where
  base := ⟨by simp [start], by simp [start, ids], by simp [start, ids], by simp [start]⟩
  sound := rfl
  listed := by simp [start, Listed]
  nodup1 := List.nodup_nil
  nodup2 := List.nodup_nil
  apart := by simp [start]
  once := List.nodup_nil
  waiting := by simp [start]
  linked := by simp [start]
  frames := by simp [start]
  calls := by simp [start]

theorem State.Inv.safe (h : s.Inv) : s.Safe := ⟨h.sound, h.once⟩

theorem State.Inv.unsettled (h : s.Inv) (hc : c ∈ s.stage1) : s.Unsettled c :=
  ⟨h.listed c (.inl hc), h.waiting c hc⟩

/-- A frame stays as it should be while connections stay where they are. -/
theorem State.FrameOk.mono {f : Frame} (h : s.FrameOk f)
    (hlisted : ∀ c, f.saved = some c → s.Listed c → t.Listed c)
    (hstage1 : ∀ c, f.saved = some c → f.conn = none → c ∈ s.stage1 → c ∈ t.stage1)
    (hunsettled : ∀ c, f.conn = some c → s.Unsettled c → t.Unsettled c) : t.FrameOk f := by
  cases f with
  | walk dlp c =>
    rintro c' hc'
    obtain ⟨hl, h1⟩ := h c' hc'
    exact ⟨hlisted c' hc' hl, fun htype => hstage1 c' hc' rfl (h1 htype)⟩
  | resolving dlp c c2 =>
    obtain ⟨htype, hopen, hl⟩ := h
    exact ⟨htype, hunsettled c rfl hopen, fun c' hc' => hlisted c' hc' (hl c' hc')⟩
  | lookingUp c => exact hunsettled c rfl h
  | identifying c => exact hunsettled c rfl h

/-- A frame that does not go on with a connection stays as it should be when that one leaves its
place; a loop over a reverse lookup may go on with it along the second list. -/
theorem State.FrameOk.leave {f : Frame} (h : s.FrameOk f) (hconn : f.conn ≠ some c)
    (hlisted : ∀ d ≠ c, s.Listed d → t.Listed d)
    (hstage1 : ∀ d ≠ c, d ∈ s.stage1 → d ∈ t.stage1)
    (hunsettled : ∀ d ≠ c, s.Unsettled d → t.Unsettled d)
    (hsaved : f.saved = some c → c ∈ t.stage2 ∧
      ∀ dlp c', f = .walk dlp c' → dlp.type = DNS_T_PTR) : t.FrameOk f := by
  have hopen : ∀ d, f.conn = some d → s.Unsettled d → t.Unsettled d := fun d hd =>
    hunsettled d fun heq => hconn (heq ▸ hd)
  by_cases hc : f.saved = some c
  · obtain ⟨h2, hptr⟩ := hsaved hc
    cases f with
    | walk dlp c' =>
      obtain rfl : c' = some c := hc
      rintro d hd
      obtain rfl := Option.some.inj hd
      exact ⟨.inr h2, fun htype => absurd (hptr dlp _ rfl) htype⟩
    | resolving dlp d c2 =>
      obtain rfl : c2 = some c := hc
      refine ⟨h.1, hopen d rfl h.2.1, fun d' hd' => ?_⟩
      obtain rfl := Option.some.inj hd'
      exact .inr h2
    | lookingUp d => cases hc
    | identifying d => cases hc
  · have hne : ∀ d, f.saved = some d → d ≠ c := fun d hd heq => hc (heq ▸ hd)
    exact h.mono (fun d hd => hlisted d (hne d hd)) (fun d hd _ => hstage1 d (hne d hd)) hopen

/-- The stack changes. -/
theorem State.Inv.withFrames (h : s.Inv) {fs : List Frame} (hfs : ∀ f ∈ fs, s.FrameOk f)
    (hcalls : ∀ f ∈ fs.tail, f.conn.isSome) : State.Inv { s with frames := fs } :=
  ⟨(s.frames_alike fs).base h.base, h.sound, h.listed, h.nodup1, h.nodup2, h.apart, h.once,
    h.waiting, h.linked, hfs, hcalls⟩

/-- Only the theorems ask which lookups there were. -/
theorem State.Inv.answered (h : s.Inv) (dlps : List DnsLookup) :
    State.Inv { s with answers := dlps } := by
  have halike : s.Alike { s with answers := dlps } := ⟨rfl, rfl, rfl⟩
  exact ⟨halike.base h.base, h.sound, h.listed, h.nodup1, h.nodup2, h.apart, h.once, h.waiting,
    h.linked, h.frames, h.calls⟩

/-- A call is made. -/
theorem State.Inv.push (h : s.Inv) (hcalls : ∀ f ∈ s.frames, f.conn.isSome) {f : Frame}
    (hf : s.FrameOk f) : State.Inv { s with frames := f :: s.frames } := by
  refine h.withFrames ?_ hcalls
  rw [List.forall_mem_cons]
  exact ⟨hf, h.frames⟩

/-- The call that is innermost returns. -/
theorem State.Inv.pop (h : s.Inv) {f : Frame} {fs : List Frame} (hframes : s.frames = f :: fs) :
    State.Inv { s with frames := fs } := by
  refine h.withFrames (fun g hg => h.frames g ?_) fun g hg => h.calls g ?_
  · exact hframes ▸ List.mem_cons_of_mem f hg
  · rw [hframes]
    exact List.mem_of_mem_tail hg

/-- A connection is written to. -/
theorem State.Inv.write (h : s.Inv) (hc : s.mem c = some conn) {conn' : Connection}
    (hdone : conn.isDone = true → conn'.isDone = true) (hstage2 : conn'.stage2 = conn.stage2)
    (hident : c ∉ s.stage1 → conn'.ident = conn.ident)
    (hssl : conn'.sslInit = true → conn.sslInit = true) : (s.write c conn').Inv := by
  have hsome : ∀ j, ((s.write c conn').mem j).isSome = (s.mem j).isSome := by
    intro j
    by_cases hjc : j = c
    · subst hjc
      simp [State.write, hc]
    · simp [State.write, Function.update_of_ne hjc]
  constructor
  case base => exact h.base.write hc hdone hstage2
  case sound => exact h.sound
  case listed => exact fun j hj => (hsome j).trans (h.listed j hj)
  case nodup1 => exact h.nodup1
  case nodup2 => exact h.nodup2
  case apart => exact h.apart
  case once => exact h.once
  case waiting => exact h.waiting
  case linked =>
    intro j b hb hj1 hj
    by_cases hjc : j = c
    · subst hjc
      obtain rfl : conn' = b := by simpa [State.write] using hb
      obtain ⟨hi, hs⟩ := h.linked j conn hc hj1 hj
      refine ⟨(hident hj1).trans hi, ?_⟩
      by_contra hne
      rw [hssl (Bool.not_eq_false _ ▸ hne)] at hs
      cases hs
    · refine h.linked j b ?_ hj1 hj
      simpa [State.write, Function.update_of_ne hjc] using hb
  case frames =>
    intro f hf
    refine (h.frames f hf).mono (fun _ _ hl => hl) (fun _ _ _ h1 => h1) fun j _ hj => ?_
    exact ⟨(hsome j).trans hj.1, hj.2⟩
  case calls => exact h.calls

/-- A connection is taken off the lists, or put on the second one; it may be settled, and it may be
gone. -/
theorem State.Inv.leave (h : s.Inv) (hbase : t.Base) (hfault : t.fault = s.fault)
    (hstage1 : t.stage1 = s.stage1.erase c)
    (hstage2 : t.stage2 = s.stage2.erase c ∨ t.stage2 = c :: s.stage2.erase c)
    (hframes : t.frames = s.frames) (hmem : ∀ j ≠ c, t.mem j = s.mem j)
    (hids : ∀ j ≠ c, j ∈ t.ids ↔ j ∈ s.ids) (honce : t.ids.Nodup)
    (hthere : c ∈ t.stage2 → (t.mem c).isSome)
    (hlinked : ∀ conn, t.mem c = some conn →
      c ∈ t.ids ∨ conn.ident = false ∧ conn.sslInit = false)
    (hf : ∀ f ∈ s.frames, f.conn ≠ some c ∧ (f.saved = some c → c ∈ t.stage2 ∧
      ∀ dlp c', f = .walk dlp c' → dlp.type = DNS_T_PTR)) : t.Inv := by
  have hmem1 : ∀ j, j ∈ t.stage1 ↔ j ≠ c ∧ j ∈ s.stage1 := by
    intro j
    rw [hstage1]
    exact h.nodup1.mem_erase_iff
  have herase2 : ∀ j, j ∈ s.stage2.erase c ↔ j ≠ c ∧ j ∈ s.stage2 := fun j =>
    h.nodup2.mem_erase_iff
  have hmem2 : ∀ j ≠ c, (j ∈ t.stage2 ↔ j ∈ s.stage2) := by
    intro j hj
    rcases hstage2 with h2 | h2 <;> simp [h2, herase2, hj]
  have hlisted : ∀ j ≠ c, s.Listed j → t.Listed j := fun j hj hl =>
    hl.imp (fun h1 => (hmem1 j).mpr ⟨hj, h1⟩) fun h2 => (hmem2 j hj).mpr h2
  constructor
  case base => exact hbase
  case sound => exact hfault.trans h.sound
  case listed =>
    intro j hj
    by_cases hjc : j = c
    · subst hjc
      exact hthere (hj.resolve_left fun h1 => ((hmem1 j).mp h1).1 rfl)
    · rw [hmem j hjc]
      refine h.listed j (hj.imp (fun h1 => ((hmem1 j).mp h1).2) fun h2 => (hmem2 j hjc).mp h2)
  case nodup1 => exact hstage1 ▸ h.nodup1.erase c
  case nodup2 =>
    rcases hstage2 with h2 | h2
    · exact h2 ▸ h.nodup2.erase c
    · rw [h2, List.nodup_cons]
      exact ⟨fun hc => ((herase2 c).mp hc).1 rfl, h.nodup2.erase c⟩
  case apart =>
    intro j hj hj2
    obtain ⟨hjc, h1⟩ := (hmem1 j).mp hj
    exact h.apart j h1 ((hmem2 j hjc).mp hj2)
  case once => exact honce
  case waiting =>
    intro j hj
    obtain ⟨hjc, h1⟩ := (hmem1 j).mp hj
    rw [hids j hjc]
    exact h.waiting j h1
  case linked =>
    intro j conn hconn hj1 hj
    by_cases hjc : j = c
    · subst hjc
      exact (hlinked conn hconn).resolve_left hj
    · rw [hmem j hjc] at hconn
      rw [hids j hjc] at hj
      exact h.linked j conn hconn (fun h1 => hj1 ((hmem1 j).mpr ⟨hjc, h1⟩)) hj
  case frames =>
    rw [hframes]
    intro f hfs
    obtain ⟨hconn, hsaved⟩ := hf f hfs
    refine (h.frames f hfs).leave hconn hlisted (fun d hd h1 => (hmem1 d).mpr ⟨hd, h1⟩)
      (fun d hd hopen => ?_) hsaved
    exact ⟨(hmem d hd).symm ▸ hopen.1, fun hin => hopen.2 ((hids d hd).mp hin)⟩
  case calls => exact hframes ▸ h.calls

/-- A connection gets the next number, while nothing is under way. -/
theorem State.Inv.new (h : s.Inv) (hbase : t.Base)
    (hmem : t.mem = Function.update s.mem s.next (some conn)) (hfault : t.fault = s.fault)
    (hpassed : t.passed = s.passed) (hframes : t.frames = [])
    (hlists : t.stage1 = s.next :: s.stage1 ∧ t.stage2 = s.stage2 ∨
      t.stage1 = s.stage1 ∧ t.stage2 = s.next :: s.stage2 ∧ conn.ident = false ∧
        conn.sslInit = false) : t.Inv := by
  have hids : t.ids = s.ids := congrArg (List.map Prod.fst) hpassed
  have hold : ∀ j, s.Listed j → j ≠ s.next := fun j hj => (h.base.fresh j (h.listed j hj)).ne
  have hlisted : ∀ j, t.Listed j ↔ j = s.next ∨ s.Listed j := by
    intro j
    unfold State.Listed
    rcases hlists with ⟨h1, h2⟩ | ⟨h1, h2, -⟩
    · rw [h1, h2, List.mem_cons, or_assoc]
    · rw [h1, h2, List.mem_cons]
      exact or_left_comm
  constructor
  case base => exact hbase
  case sound => exact hfault.trans h.sound
  case listed =>
    intro j hj
    rcases (hlisted j).mp hj with rfl | hj
    · simp [hmem]
    · rw [hmem, Function.update_of_ne (hold j hj)]
      exact h.listed j hj
  case nodup1 =>
    rcases hlists with ⟨h1, -⟩ | ⟨h1, -⟩
    · rw [h1, List.nodup_cons]
      exact ⟨fun hin => hold _ (.inl hin) rfl, h.nodup1⟩
    · exact h1 ▸ h.nodup1
  case nodup2 =>
    rcases hlists with ⟨-, h2⟩ | ⟨-, h2, -⟩
    · exact h2 ▸ h.nodup2
    · rw [h2, List.nodup_cons]
      exact ⟨fun hin => hold _ (.inr hin) rfl, h.nodup2⟩
  case apart =>
    intro j hj hj2
    rcases hlists with ⟨h1, h2⟩ | ⟨h1, h2, -⟩
    · rw [h1] at hj
      rw [h2] at hj2
      rcases List.mem_cons.mp hj with rfl | hj
      · exact hold _ (.inr hj2) rfl
      · exact h.apart j hj hj2
    · rw [h1] at hj
      rw [h2] at hj2
      rcases List.mem_cons.mp hj2 with rfl | hj2
      · exact hold _ (.inl hj) rfl
      · exact h.apart j hj hj2
  case once => exact hids ▸ h.once
  case waiting =>
    have hnew : s.next ∉ s.ids := fun hin => lt_irrefl _ (h.base.numbered _ hin)
    intro j hj
    rw [hids]
    rcases hlists with ⟨h1, -⟩ | ⟨h1, -⟩
    · rw [h1] at hj
      rcases List.mem_cons.mp hj with rfl | hj
      · exact hnew
      · exact h.waiting j hj
    · exact h.waiting j (h1 ▸ hj)
  case linked =>
    intro j b hb hj1 hj
    rw [hids] at hj
    rw [hmem] at hb
    by_cases hjn : j = s.next
    · subst hjn
      rw [Function.update_self] at hb
      obtain rfl := Option.some.inj hb
      rcases hlists with ⟨h1, -⟩ | ⟨-, -, hlink⟩
      · exact absurd (h1 ▸ List.mem_cons_self) hj1
      · exact hlink
    · rw [Function.update_of_ne hjn] at hb
      refine h.linked j b hb (fun hin => hj1 ?_) hj
      rcases hlists with ⟨h1, -⟩ | ⟨h1, -⟩
      · exact h1 ▸ List.mem_cons_of_mem _ hin
      · exact h1 ▸ hin
  case frames => simp [hframes]
  case calls => simp [hframes]

/-! ### One step -/

/-- A function has come to its last line with nothing wrong: the connection it will test is
unsettled, and no loop over a forward lookup has saved it. -/
structure State.Ready (p : State.Part) : Prop where
  inv : p.1.Inv
  unsettled : ∀ c, p.2 = some c → p.1.Unsettled c
  ahead : ∀ c, p.2 = some c → ∀ dlp, .walk dlp (some c) ∈ p.1.frames → dlp.type = DNS_T_PTR

/-- Nothing is tested. -/
theorem State.Inv.ready (h : s.Inv) : State.Ready (s, none) :=
  ⟨h, by simp, by simp⟩

/-- All that is under way are calls. -/
theorem State.Inv.ready_test (h : s.Inv) (hc : s.Unsettled c)
    (hcalls : ∀ f ∈ s.frames, f.conn.isSome) : State.Ready (s, some c) where
  inv := h
  unsettled := fun d hd => Option.some.inj hd ▸ hc
  ahead := fun d _ dlp hf => absurd (hcalls _ hf) (by simp [Frame.conn])

theorem State.Inv.checkIdent (h : s.Inv) (hc : s.Unsettled c)
    (hcalls : ∀ f ∈ s.frames, f.conn.isSome) : State.Ready (s.checkIdent c) := by
  obtain ⟨conn, hconn⟩ := Option.isSome_iff_exists.mp hc.1
  rw [State.checkIdent, hconn]
  dsimp only
  split
  · exact h.ready_test hc hcalls
  · exact (@State.Inv.push s h hcalls (.identifying c) hc).ready

theorem State.Inv.initLookups (h : s.Inv) (hc : s.Unsettled c)
    (hcalls : ∀ f ∈ s.frames, f.conn.isSome) : State.Ready (s.initLookups c) := by
  obtain ⟨conn, hconn⟩ := Option.isSome_iff_exists.mp hc.1
  rw [State.initLookups, hconn]
  dsimp only
  split
  · exact h.checkIdent hc hcalls
  · exact (@State.Inv.push s h hcalls (.lookingUp c) hc).ready

theorem State.Inv.listen (h : s.Inv) (hidle : s.frames = []) (peer : Peer)
    (stage1 : Option (Bool × Bool)) (ssl : Bool) : State.Ready (s.listen peer stage1 ssl) := by
  have hbase := (h.base.advance_listen peer stage1 ssl).base
  cases stage1 with
  | none =>
    refine State.Inv.ready ⟨hbase, h.sound, h.listed, h.nodup1, h.nodup2, h.apart, h.once,
      h.waiting, h.linked, fun f hf => ?_, fun f hf => ?_⟩
    · rw [hidle] at hf
      cases hf
    · rw [hidle] at hf
      cases hf
  | some skips =>
    have hnew : ∀ conn : Connection, conn.stage2 = false → State.Inv
        { s.write s.next conn with next := s.next + 1, stage1 := s.next :: s.stage1 } := by
      intro conn hconn
      have hadvance : s.Advance
          { s.write s.next conn with next := s.next + 1, stage1 := s.next :: s.stage1 } :=
        h.base.advance_new hconn rfl rfl rfl
      exact h.new hadvance.base rfl rfl rfl hidle (.inl ⟨rfl, rfl⟩)
    unfold State.listen
    dsimp only
    split
    · exact (hnew _ rfl).ready
    · refine (hnew _ rfl).initLookups ((hnew _ rfl).unsettled List.mem_cons_self) fun f hf => ?_
      have hf' : f ∈ s.frames := hf
      rw [hidle] at hf'
      cases hf'

theorem State.Inv.handshake {p : State.Part} (h : s.Inv) (hidle : s.frames = [])
    (hc : c ∈ s.stage1) (hp : s.handshake c = some p) : State.Ready p := by
  obtain ⟨conn, hconn, hp⟩ := Option.bind_eq_some_iff.mp hp
  split at hp
  · obtain rfl := Option.some.inj hp
    have hwrite : State.Inv (s.write c { conn with sslInit := false }) :=
      h.write hconn (fun hdone => hdone) rfl (fun _ => rfl) fun hssl => nomatch hssl
    refine hwrite.initLookups (hwrite.unsettled hc) fun f hf => ?_
    have hf' : f ∈ s.frames := hf
    rw [hidle] at hf'
    cases hf'
  · cases hp

theorem State.nextOf_listed {d : ℕ} (h : s.nextOf c = some d) :
    s.Listed d ∧ (c ∈ s.stage1 → d ∈ s.stage1) := by
  unfold State.nextOf at h
  split at h
  · have hd := Cursor.behind_suffix.subset (List.mem_of_mem_head? h)
    exact ⟨.inl hd, fun _ => hd⟩
  · rename_i hc
    have hd := Cursor.behind_suffix.subset (List.mem_of_mem_head? h)
    exact ⟨.inr hd, fun h1 => absurd h1 hc⟩

theorem State.Inv.nextOf_ne (h : s.Inv) (hc : c ∈ s.stage1) : s.nextOf c ≠ some c := by
  intro hnext
  rw [State.nextOf, if_pos hc] at hnext
  obtain ⟨before, behind, heq⟩ := List.append_of_mem hc
  have hbefore : id c ∉ before.map id := by
    have hnodup := heq ▸ h.nodup1
    simpa using fun hin => (List.nodup_middle.mp hnodup).notMem (List.mem_append_left _ hin)
  have hbehind : Cursor.behind id c s.stage1 = behind := heq ▸ Cursor.behind_append hbefore
  rw [hbehind] at hnext
  have hin : c ∈ behind := List.mem_of_mem_head? hnext
  have hnodup := heq ▸ h.nodup1
  exact (List.nodup_middle.mp hnodup).notMem (List.mem_append_right _ hin)

theorem State.Inv.lookupTurn {dlp : DnsLookup} {fs : List Frame} {p : State.Part} (h : s.Inv)
    (hframes : s.frames = .walk dlp (some c) :: fs) (hp : s.lookupTurn c okay dlp fs = some p) :
    State.Ready p := by
  have htop : .walk dlp (some c) ∈ s.frames := hframes ▸ List.mem_cons_self
  have hfs : ∀ f ∈ fs, s.FrameOk f := fun f hf => h.frames f (hframes ▸ List.mem_cons_of_mem _ hf)
  have hcalls : ∀ f ∈ fs, f.conn.isSome := fun f hf => h.calls f (by rw [hframes]; exact hf)
  obtain ⟨hlisted, hforward⟩ := h.frames _ htop c rfl
  obtain ⟨conn, hconn⟩ := Option.isSome_iff_exists.mp (h.listed c hlisted)
  have hloop : State.Inv { s with frames := .walk dlp (s.nextOf c) :: fs } := by
    refine h.withFrames ?_ hcalls
    rw [List.forall_mem_cons]
    refine ⟨fun d hd => ?_, hfs⟩
    obtain ⟨hl, h1⟩ := State.nextOf_listed hd
    exact ⟨hl, fun htype => h1 (hforward htype)⟩
  rw [State.lookupTurn, hconn] at hp
  obtain ⟨outcome, houtcome, rfl⟩ := Option.map_eq_some_iff.mp hp
  cases outcome with
  | skipped => exact hloop.ready
  | settled conn' =>
    have hkept := DnsLookup.settled_kept houtcome
    have hwrite : State.Inv
        (State.write { s with frames := .walk dlp (s.nextOf c) :: fs } c conn') :=
      hloop.write hconn hkept.done hkept.stage2 (fun _ => hkept.ident) fun hssl =>
        hkept.sslInit ▸ hssl
    refine ⟨hwrite, fun d hd => ?_, fun d hd dlp' hf => ?_⟩
    · obtain rfl := Option.some.inj hd
      refine ⟨by simp [State.write], fun hin => ?_⟩
      -- a settled connection is skipped by reverse lookups, and is not on the first list
      by_cases htype : dlp.type = DNS_T_PTR
      · have hskip := @DnsLookup.skipped_of_done okay conn dlp htype (h.base.done c hin conn hconn)
        rw [houtcome] at hskip
        cases hskip
      · exact h.waiting c (hforward htype) hin
    · obtain rfl := Option.some.inj hd
      rcases List.mem_cons.mp hf with heq | hf
      · obtain ⟨rfl, hnext⟩ := Frame.walk.inj heq
        by_contra htype
        exact h.nextOf_ne (hforward htype) hnext.symm
      · exact absurd (hcalls _ hf) (by simp [Frame.conn])
  | asks conn' =>
    obtain ⟨htype, hdns, hkept⟩ := DnsLookup.asks_kept houtcome
    have hc : s.Unsettled c := by
      refine ⟨by rw [hconn]; rfl, fun hin => ?_⟩
      have hdone := h.base.done c hin conn hconn
      simp only [Connection.isDone, Bool.and_eq_true] at hdone
      rw [Connection.dns, hdone.1.1] at hdns
      cases hdns
    have hcall : State.Inv { s with frames := .resolving dlp c (s.nextOf c) :: fs } := by
      refine h.withFrames ?_ hcalls
      rw [List.forall_mem_cons]
      exact ⟨⟨htype, hc, fun d hd => (State.nextOf_listed hd).1⟩, hfs⟩
    have hwrite : State.Inv
        (State.write { s with frames := .resolving dlp c (s.nextOf c) :: fs } c conn') :=
      hcall.write hconn hkept.done hkept.stage2 (fun _ => hkept.ident) fun hssl =>
        hkept.sslInit ▸ hssl
    exact hwrite.ready

theorem State.Inv.returned {p : State.Part} (h : s.Inv) (hp : s.returned = some p) :
    State.Ready p := by
  unfold State.returned at hp
  have hcalls : ∀ {f fs}, s.frames = f :: fs → ∀ g ∈ fs, g.conn.isSome := by
    intro f fs hframes g hg
    exact h.calls g (by rw [hframes]; exact hg)
  have htop : ∀ {f fs}, s.frames = f :: fs → s.FrameOk f := by
    intro f fs hframes
    exact h.frames f (hframes ▸ List.mem_cons_self)
  split at hp
  · rename_i dlp c c2 fs hframes
    obtain rfl := Option.some.inj hp
    obtain ⟨htype, hc, hc2⟩ := htop hframes
    refine ⟨?_, fun d hd => Option.some.inj hd ▸ hc, fun d _ dlp' hf => ?_⟩
    · refine (h.pop hframes).push (hcalls hframes) fun d hd => ?_
      exact ⟨hc2 d hd, fun hforward => absurd htype hforward⟩
    · rcases List.mem_cons.mp hf with heq | hf
      · exact (Frame.walk.inj heq).1 ▸ htype
      · exact absurd (hcalls hframes _ hf) (by simp [Frame.conn])
  · rename_i c fs hframes
    obtain rfl := Option.some.inj hp
    exact (h.pop hframes).checkIdent (htop hframes) (hcalls hframes)
  · rename_i c fs hframes
    obtain rfl := Option.some.inj hp
    exact (h.pop hframes).ready_test (htop hframes) (hcalls hframes)
  · cases hp

theorem State.Inv.identHook (h : s.Inv) (sock : ℕ) (answer : Bytes)
    (hcalls : ∀ f ∈ s.frames, f.conn.isSome) : State.Ready (s.identHook sock answer) := by
  unfold State.identHook
  split
  · exact h.ready
  · rename_i c hfound
    have hc : c ∈ s.stage1 := List.mem_of_find?_eq_some hfound
    obtain ⟨conn, hconn⟩ := Option.isSome_iff_exists.mp (h.listed c (.inl hc))
    rw [hconn]
    have hwrite : ∀ user, State.Inv (s.write c { conn with ident := true, user := user }) := by
      intro user
      refine h.write hconn (fun hdone => ?_) rfl (fun h1 => absurd hc h1) fun hssl => hssl
      simp only [Connection.isDone, Bool.and_eq_true] at hdone
      simp [Connection.isDone, hdone.1.1, hdone.1.2]
    exact (hwrite _).ready_test ((hwrite _).unsettled hc) hcalls

theorem State.Inv.close (h : s.Inv) (hidle : s.frames = []) (c : ℕ) : (s.destroy c).Inv := by
  have hgone := s.destroy_mem_self c
  refine h.leave (h.base.destroy c) rfl rfl (.inl rfl) rfl
    (fun j hj => Function.update_of_ne hj _ _) (fun _ _ => Iff.rfl) h.once
    (fun hc => absurd rfl (h.nodup2.mem_erase_iff.mp hc).1) (fun conn hconn => ?_) fun f hf => ?_
  · rw [hgone] at hconn
    cases hconn
  · rw [hidle] at hf
    cases hf

theorem State.Inv.register (h : s.Inv) (hidle : s.frames = []) (hc : c ∈ s.stage2) :
    (s.remove c).Inv := by
  have halike : s.Alike (s.remove c) := ⟨rfl, rfl, rfl⟩
  refine h.leave (halike.base h.base) rfl rfl (.inl rfl) rfl (fun _ _ => rfl)
    (fun _ _ => Iff.rfl) h.once (fun _ => h.listed c (.inr hc)) (fun conn hconn => ?_)
    fun f hf => ?_
  · by_cases hin : c ∈ s.ids
    · exact .inl hin
    · exact .inr (h.linked c conn hconn (fun h1 => h.apart c h1 hc) hin)
  · rw [hidle] at hf
    cases hf

theorem State.Inv.calls_of_head (h : s.Inv) (hhead : ∀ f ∈ s.frames.head?, f.conn.isSome) :
    ∀ f ∈ s.frames, f.conn.isSome := by
  have hcalls := h.calls
  cases hframes : s.frames with
  | nil => simp
  | cons f fs =>
    rw [hframes] at hhead hcalls
    rw [List.forall_mem_cons]
    exact ⟨hhead f rfl, hcalls⟩

theorem State.head_of_takesAnswer (h : s.takesAnswer = true) :
    ∀ f ∈ s.frames.head?, f.conn.isSome := by
  unfold State.takesAnswer at h
  split at h
  · rename_i hframes
    simp [hframes]
  · rename_i hframes
    simp [hframes, Frame.conn]
  · rename_i hframes
    simp [hframes, Frame.conn]
  · cases h

theorem State.head_of_takesIdent {sock : ℕ} (h : s.takesIdent sock = true) :
    ∀ f ∈ s.frames.head?, f.conn.isSome := by
  unfold State.takesIdent at h
  split at h
  · rename_i hframes
    simp [hframes]
  · rename_i hframes
    simp [hframes, Frame.conn]
  · cases h

theorem State.Inv.part {a : Action} {p : State.Part} (h : s.Inv)
    (hhandshake : ∀ c refuse, a = .handshake c refuse → c ∈ s.stage1)
    (hp : s.part okay a = some p) : State.Ready p := by
  cases a with
  | accept peer stage1 ssl refuse =>
    obtain ⟨hidle, rfl⟩ := Option.ite_some_none_eq_some.mp hp
    exact h.listen (List.isEmpty_iff.mp hidle) peer stage1 ssl
  | handshake c refuse =>
    obtain ⟨hidle, hp⟩ := Option.ite_none_right_eq_some.mp hp
    exact h.handshake (List.isEmpty_iff.mp hidle) (hhandshake c refuse rfl) hp
  | answer dlp =>
    obtain ⟨htakes, rfl⟩ := Option.ite_some_none_eq_some.mp hp
    have hpush : State.Inv { s with frames := .walk dlp s.stage1.head? :: s.frames } := by
      refine h.push (h.calls_of_head (s.head_of_takesAnswer htakes)) fun c hc => ?_
      have h1 : c ∈ s.stage1 := List.mem_of_mem_head? hc
      exact ⟨.inl h1, fun _ => h1⟩
    exact (hpush.answered (dlp :: s.answers)).ready
  | next refuse =>
    simp only [State.part] at hp
    split at hp
    · rename_i dlp fs hframes
      obtain rfl := Option.some.inj hp
      exact (h.pop hframes).ready
    · rename_i dlp c fs hframes
      exact h.lookupTurn hframes hp
    · cases hp
  | ret refuse => exact h.returned hp
  | ident sock answer refuse =>
    obtain ⟨htakes, rfl⟩ := Option.ite_some_none_eq_some.mp hp
    exact h.identHook sock answer (h.calls_of_head (s.head_of_takesIdent htakes))
  | close c =>
    obtain ⟨⟨hidle, -⟩, rfl⟩ := Option.ite_some_none_eq_some.mp hp
    exact (h.close (List.isEmpty_iff.mp hidle) c).ready
  | register c =>
    obtain ⟨⟨hidle, hc, -⟩, rfl⟩ := Option.ite_some_none_eq_some.mp hp
    exact (h.register (List.isEmpty_iff.mp hidle) hc).ready
  | link peer =>
    obtain ⟨hidle, rfl⟩ := Option.ite_some_none_eq_some.mp hp
    have hadvance := @State.Base.part okay s (.link peer) _ h.base hp
    exact (h.new hadvance.base rfl rfl rfl (List.isEmpty_iff.mp hidle)
      (.inr ⟨rfl, rfl, rfl, rfl⟩)).ready

theorem State.Inv.stage2Done {refuse : Bool} (h : s.Inv) (hc : s.mem c = some conn)
    (hin : c ∉ s.ids) (hdone : conn.isDone = true)
    (hf : ∀ f ∈ s.frames, f.conn ≠ some c ∧ (refuse = true → f.saved ≠ some c) ∧
      ∀ dlp, f = .walk dlp (some c) → dlp.type = DNS_T_PTR) :
    (s.stage2Done c conn refuse).Inv := by
  have hbase := h.base.stage2Done hc hdone refuse
  have hids := s.stage2Done_ids c conn refuse
  have honce : (s.stage2Done c conn refuse).ids.Nodup := by
    rw [hids, List.nodup_cons]
    exact ⟨hin, h.once⟩
  have hother : ∀ j ≠ c, j ∈ (s.stage2Done c conn refuse).ids ↔ j ∈ s.ids := by
    intro j hj
    rw [hids, List.mem_cons, or_iff_right hj]
  have hsettled : c ∈ (s.stage2Done c conn refuse).ids := hids ▸ List.mem_cons_self
  cases refuse with
  | true =>
    refine h.leave hbase rfl rfl (.inl rfl) rfl (fun j hj => Function.update_of_ne hj _ _) hother
      honce (fun h2 => absurd rfl (h.nodup2.mem_erase_iff.mp h2).1) (fun _ _ => .inl hsettled)
      fun f hfs => ?_
    obtain ⟨hconn, hsaved, -⟩ := hf f hfs
    exact ⟨hconn, fun heq => absurd heq (hsaved rfl)⟩
  | false =>
    refine h.leave hbase rfl rfl (.inr rfl) rfl (fun _ _ => rfl) hother honce
      (fun _ => by rw [State.stage2Done_mem, if_neg Bool.false_ne_true, hc]; rfl)
      (fun _ _ => .inl hsettled) fun f hfs => ?_
    obtain ⟨hconn, -, hptr⟩ := hf f hfs
    refine ⟨hconn, fun heq => ⟨List.mem_cons_self, ?_⟩⟩
    rintro dlp c' rfl
    obtain rfl : c' = some c := heq
    exact hptr dlp rfl

/-- The test keeps things so, if it settles nothing that a call or a loop goes on with. -/
theorem State.Ready.finish {p : State.Part} {refuse : Bool} (h : State.Ready p)
    (hmeets : ∀ c, p.2 = some c → (p.1.mem c).any Connection.isDone = true →
      ∀ f ∈ p.1.frames, f.conn ≠ some c ∧ (refuse = true → f.saved ≠ some c)) :
    (State.finish refuse p).Inv := by
  obtain ⟨t, tested⟩ := p
  cases tested with
  | none => exact h.inv
  | some c =>
    have hc : t.Unsettled c := h.unsettled c rfl
    obtain ⟨conn, hconn⟩ := Option.isSome_iff_exists.mp hc.1
    show (t.test c refuse).Inv
    rw [State.test_of_mem hconn]
    split
    · rename_i hdone
      have hspares := hmeets c rfl (by rw [hconn]; exact hdone.1)
      refine h.inv.stage2Done hconn hc.2 hdone.1 fun f hf => ?_
      refine ⟨(hspares f hf).1, (hspares f hf).2, ?_⟩
      rintro dlp rfl
      exact h.ahead c rfl dlp hf
    · exact h.inv

theorem State.Inv.step {a : Action} {s' : State} (h : s.Inv) (hmeets : Meets okay s a)
    (hs' : s.step okay a = some s') : s'.Inv := by
  obtain ⟨-, ⟨t, tested⟩, hp, rfl⟩ := State.step_cases hs'
  refine (h.part hmeets.handshake hp).finish fun c hc => ?_
  obtain rfl : tested = some c := hc
  exact hmeets.settles t c hp

/-- A step that does not meet the condition goes wrong, now or as a call returns. -/
theorem State.Inv.doomed {a : Action} {s' : State} (h : s.Inv) (hbad : ¬ Meets okay s a)
    (hs' : s.step okay a = some s') (hsafe : s'.Safe) : s'.Doomed := by
  obtain ⟨-, p, hp, rfl⟩ := State.step_cases hs'
  obtain ⟨hbase, -, -⟩ := h.base.part hp
  by_cases hsettles : ∀ t c, s.part okay a = some (t, some c) →
      (t.mem c).any Connection.isDone = true →
        ∀ f ∈ t.frames, f.conn ≠ some c ∧ (a.refuses = true → f.saved ≠ some c)
  · -- a handshake ends for a connection that is settled
    have hhandshake : ∃ c refuse, a = .handshake c refuse ∧ c ∉ s.stage1 := by
      by_contra hnone
      refine hbad ⟨hsettles, fun c refuse ha => ?_⟩
      by_contra h1
      exact hnone ⟨c, refuse, ha, h1⟩
    obtain ⟨c, refuse, rfl, h1⟩ := hhandshake
    obtain ⟨-, hp⟩ := Option.ite_none_right_eq_some.mp hp
    obtain ⟨conn, hconn, hp⟩ := Option.bind_eq_some_iff.mp hp
    obtain ⟨hssl, rfl⟩ := Option.ite_some_none_eq_some.mp hp
    have hin : c ∈ s.ids := by
      by_contra hin
      rw [(h.linked c conn hconn h1 hin).2] at hssl
      cases hssl
    have hwrite : (s.write c { conn with sslInit := false }).Base :=
      h.base.write hconn (fun hdone => hdone) rfl
    exact absurd hsafe (hwrite.not_safe_initLookups hin refuse)
  · push Not at hsettles
    obtain ⟨t, c, hpart, hdone, f, hf, hgoes⟩ := hsettles
    obtain rfl : p = (t, some c) := Option.some.inj (hp.symm.trans hpart)
    obtain ⟨conn, hconn, hdone⟩ := (Option.any_eq_true _ _).mp hdone
    have hneed : conn.needStage2 = true := by
      simp [Connection.needStage2, hbase.stage2 c conn hconn]
    have hs' : State.finish a.refuses (t, some c) = t.stage2Done c conn a.refuses := by
      show t.test c a.refuses = _
      rw [State.test_of_mem hconn, if_pos ⟨hdone, hneed⟩]
    rw [hs']
    refine ⟨hbase.stage2Done hconn hdone a.refuses, f, ?_, ?_⟩
    · rw [State.stage2Done_frames]
      exact hf
    · by_cases hfc : f.conn = some c
      · refine .inl ⟨c, hfc, ?_⟩
        rw [State.stage2Done_ids]
        exact List.mem_cons_self
      · obtain ⟨hrefuse, hsaved⟩ := hgoes hfc
        refine .inr ⟨c, hsaved, ?_, ?_⟩
        · rw [State.stage2Done_next]
          exact hbase.fresh c (by rw [hconn]; rfl)
        · rw [State.stage2Done_mem, if_pos hrefuse]
          exact Function.update_self _ _ _

end

/-! ### Whole runs -/

/-- A run is safe if its steps meet the condition; and a run at whose end nothing is under way is
safe only then. -/
theorem once_of_run (okay : HostMap) (as : List Action) :
    (Run.Along (State.step okay) (Meets okay) .start as →
        ∀ before behind s, as = before ++ behind →
          Run.run (State.step okay) .start before = some s → s.Safe) ∧
      ∀ t, Run.run (State.step okay) .start as = some t → t.frames = [] →
        (∀ before behind s, as = before ++ behind →
          Run.run (State.step okay) .start before = some s → s.Safe) →
        Run.Along (State.step okay) (Meets okay) .start as := by
  constructor
  · rintro hmeets before behind s rfl hs
    refine (Run.reached_of_along (I := State.Inv) ?_ State.inv_start hmeets hs).safe
    exact fun s a s' hinv hmeets hs' => hinv.step hmeets hs'
  · intro t hrun hend hsafe
    refine Run.along_of_reached (I := State.Inv) (D := State.Doomed) (P := State.Safe) ?_ ?_ ?_
      State.inv_start hrun ?_ hsafe
    · exact fun s a s' hinv hmeets hs' => hinv.step hmeets hs'
    · exact fun s a s' hinv hbad hs' hsafe => hinv.doomed hbad hs' hsafe
    · exact fun s a s' hdoomed hs' hsafe => hdoomed.step hs' hsafe
    · rintro ⟨-, f, hf, -⟩
      rw [hend] at hf
      cases hf

instance Meets.decidable (okay : HostMap) (s : State) (a : Action) : Decidable (Meets okay s a) :=
  decidable_of_iff
    (((s.part okay a).all fun p => p.2.all fun c => !(p.1.mem c).any Connection.isDone ||
        p.1.frames.all fun f => f.conn != some c && (!a.refuses || f.saved != some c)) = true ∧
      (match a with
        | .handshake c _ => decide (c ∈ s.stage1)
        | _ => true) = true) (by
    constructor
    · rintro ⟨hsettles, hhandshake⟩
      constructor
      · intro t c hp hdone f hf
        rw [hp] at hsettles
        simp only [Option.all_some, hdone, Bool.not_true, Bool.false_or, List.all_eq_true,
          Bool.and_eq_true, bne_iff_ne, Bool.or_eq_true] at hsettles
        obtain ⟨hconn, hsaved⟩ := hsettles f hf
        refine ⟨hconn, fun hrefuse => hsaved.resolve_left ?_⟩
        simp [hrefuse]
      · rintro c refuse rfl
        exact of_decide_eq_true hhandshake
    · rintro ⟨hsettles, hhandshake⟩
      constructor
      · cases hp : s.part okay a with
        | none => rfl
        | some p =>
          obtain ⟨t, tested⟩ := p
          cases tested with
          | none => rfl
          | some c =>
            by_cases hdone : (t.mem c).any Connection.isDone = true
            · have hspares := hsettles t c hp hdone
              simp only [Option.all_some, hdone, Bool.not_true, Bool.false_or, List.all_eq_true,
                Bool.and_eq_true, bne_iff_ne, Bool.or_eq_true]
              intro f hf
              refine ⟨(hspares f hf).1, ?_⟩
              by_cases hrefuse : a.refuses = true
              · exact .inr ((hspares f hf).2 hrefuse)
              · exact .inl (by simp [hrefuse])
            · simp [hdone]
      · cases a with
        | handshake c refuse => exact decide_eq_true (hhandshake c refuse rfl)
        | _ => rfl)

theorem once_of_run_visit :
    ∃ s, Run.run (State.step hostMap) .start visit = some s ∧ s.stage2 = [0] ∧ s.Safe := by
  have hrun : ((Run.run (State.step hostMap) .start visit).any fun s => s.stage2 = [0]) = true := by
    decide +kernel
  obtain ⟨s, hs, hlist⟩ := (Option.any_eq_true _ _).mp hrun
  have hmeets : Run.Along (State.step hostMap) (Meets hostMap) .start visit := by decide +kernel
  exact ⟨s, hs, of_decide_eq_true hlist,
    (once_of_run hostMap visit).1 hmeets visit [] s (List.append_nil _).symm hs⟩

/-- An ident request that is answered at once settles the connection, and `connection_init_lookups`
settles it again. -/
theorem once_fails :
    ¬ ∀ okay as s, Run.run (State.step okay) .start as = some s → s.Safe := by
  intro hall
  have hrun : ((Run.run (State.step hostMap) .start
      [.accept visitor (some (true, false)) false false, .ident 7 [] false, .ret false]).any
      fun s => !decide s.ids.Nodup) = true := by
    decide +kernel
  obtain ⟨s, hs, htwice⟩ := (Option.any_eq_true _ _).mp hrun
  have hnodup := (hall hostMap _ s hs).2
  rw [decide_eq_true hnodup] at htwice
  cases htwice

end Connections

end Ithildin
