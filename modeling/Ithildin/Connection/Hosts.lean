import Ithildin.Connection.Lookups
import Mathlib.Tactic.Common

/-!
# Confirmed names

* `Named`: the host of a connection is the address of its peer, or a name that the map admits and
  that was answered with this address;
* `Sourced`: what the flags of a connection say of its host;
* `named_of_run`: whatever comes to stage 2 is so named.
-/

namespace Ithildin

namespace Connections

variable {okay : HostMap}

/-- The host passes the map, and a forward lookup of it was answered with the address of the peer.
-/
def Confirmed (okay : HostMap) (dlps : List DnsLookup) (c : Connection) : Prop :=
  c.host.all okay = true ∧ ∃ dlp ∈ dlps, dlp.type ≠ DNS_T_PTR ∧ dlp.failed = false ∧
    sameCase c.host dlp.data = true ∧ ∃ rr ∈ dlp.an, rr.lists c = true

/-- The host is the address of the peer, or a confirmed name. -/
def Named (okay : HostMap) (dlps : List DnsLookup) (c : Connection) : Prop :=
  c.host = c.peer.text ∨ Confirmed okay dlps c

/-- Without a flag the host is the address of the peer; with the second one it is an address or a
confirmed name. -/
structure Sourced (okay : HostMap) (dlps : List DnsLookup) (c : Connection) : Prop where
  unasked : c.dns = false → c.host = c.peer.text
  answered : c.dnsAddr = true → Named okay dlps c

section
variable {dlps dlps' : List DnsLookup} {dlp : DnsLookup} {c c' : Connection}

theorem Named.mono (h : Named okay dlps c) (hsub : ∀ dlp ∈ dlps, dlp ∈ dlps') :
    Named okay dlps' c := by
  rcases h with haddr | ⟨hokay, dlp, hdlp, hrest⟩
  · exact .inl haddr
  · exact .inr ⟨hokay, dlp, hsub dlp hdlp, hrest⟩

theorem Sourced.mono (h : Sourced okay dlps c) (hsub : ∀ dlp ∈ dlps, dlp ∈ dlps') :
    Sourced okay dlps' c :=
  ⟨h.unasked, fun haddr => (h.answered haddr).mono hsub⟩

/-- A connection whose host is its address. -/
theorem sourced_of_address (h : c.host = c.peer.text) : Sourced okay dlps c :=
  ⟨fun _ => h, fun _ => .inl h⟩

/-- The bits and the text that matter are the same. -/
theorem Sourced.congr (h : Sourced okay dlps c) (hpeer : c'.peer = c.peer)
    (hhost : c'.host = c.host) (hptr : c'.dnsPtr = c.dnsPtr) (haddr : c'.dnsAddr = c.dnsAddr) :
    Sourced okay dlps c' := by
  have hlists : ∀ rr : Record, rr.lists c' = rr.lists c := by
    intro rr
    rw [Record.lists, Record.lists, Connection.addrType, Connection.addrType, hpeer]
  constructor
  · rw [Connection.dns, hptr, haddr, hhost, hpeer]
    exact h.unasked
  · rw [haddr, Named, Confirmed, hhost, hpeer]
    simp only [hlists]
    exact h.answered

/-- A connection with all lookups done is named. -/
theorem Sourced.named (h : Sourced okay dlps c) (hdone : c.isDone = true) : Named okay dlps c := by
  simp only [Connection.isDone, Bool.and_eq_true] at hdone
  exact h.answered hdone.1.2

theorem Sourced.settled (h : Sourced okay dlps c) (hdlp : dlp ∈ dlps)
    (houtcome : dlp.outcome c okay = some (.settled c')) : Sourced okay dlps c' := by
  unfold DnsLookup.outcome at houtcome
  split at houtcome
  · -- a reverse lookup that fails leaves the address
    unfold DnsLookup.reverse at houtcome
    split at houtcome
    · cases houtcome
    · rename_i hskip
      rw [not_or] at hskip
      have haddr := h.unasked (Bool.eq_false_iff.mpr hskip.1)
      split at houtcome
      · cases houtcome
        exact sourced_of_address haddr
      · split at houtcome
        · cases houtcome
          exact sourced_of_address haddr
        · obtain ⟨txt, -, htxt⟩ := Option.map_eq_some_iff.mp houtcome
          cases htxt
  · rename_i htype
    unfold DnsLookup.forward at houtcome
    split at houtcome
    · cases houtcome
    · rename_i hskip
      rw [not_or, not_not, not_not] at hskip
      split at houtcome
      · cases houtcome
        exact sourced_of_address rfl
      · rename_i hconfirms
        rw [not_or, not_not, Bool.not_eq_true] at hconfirms
        cases houtcome
        by_cases hokay : c.host.all okay = true
        · rw [if_pos hokay]
          obtain ⟨rr, hrr, hlists⟩ := List.any_eq_true.mp hconfirms.2
          refine ⟨fun hdns => ?_, fun _ => .inr ?_⟩
          · rw [Connection.dns, Bool.or_true] at hdns
            cases hdns
          · exact ⟨hokay, dlp, hdlp, htype, hconfirms.1, hskip.2, rr, hrr, hlists⟩
        · rw [if_neg hokay]
          exact sourced_of_address rfl

theorem Sourced.asks (h : dlp.outcome c okay = some (.asks c')) : Sourced okay dlps c' := by
  unfold DnsLookup.outcome at h
  split at h
  · unfold DnsLookup.reverse at h
    split at h
    · cases h
    · rename_i hskip
      rw [not_or, Bool.not_eq_true] at hskip
      split at h
      · cases h
      · split at h
        · cases h
        · obtain ⟨txt, -, htxt⟩ := Option.map_eq_some_iff.mp h
          cases htxt
          have hbits : c.dnsPtr = false ∧ c.dnsAddr = false := by
            simpa [Connection.dns] using hskip.1
          refine ⟨fun hdns => ?_, fun haddr => ?_⟩
          · cases hdns
          · rw [hbits.2] at haddr
            cases haddr
  · unfold DnsLookup.forward at h
    split at h
    · cases h
    · split at h <;> cases h

end

/-! ### The invariant -/

/-- The lookup of a loop. -/
def Frame.lookup : Frame → Option DnsLookup
  | .walk dlp _ | .resolving dlp _ _ => some dlp
  | _ => none

/-- Every host is where the flags say it is from, and every connection that came to stage 2 was
named. -/
structure State.Sourced (okay : HostMap) (s : State) : Prop where
  mem : ∀ c conn, s.mem c = some conn → Connections.Sourced okay s.answers conn
  passed : ∀ c conn, (c, conn) ∈ s.passed → Named okay s.answers conn
  frames : ∀ f ∈ s.frames, ∀ dlp, f.lookup = some dlp → dlp ∈ s.answers

section
variable {s t : State} {c : ℕ} {conn : Connection} {p : State.Part}

theorem State.sourced_start : State.start.Sourced okay :=
  ⟨by simp [State.start], by simp [State.start], by simp [State.start]⟩

/-- What a part may leave behind: the same runs of stage 2, at least the same answers, and whatever
is in memory or on the stack from before or fit to be there. -/
theorem State.Sourced.of_mem (h : s.Sourced okay) (hpassed : t.passed = s.passed)
    (hanswers : ∀ dlp ∈ s.answers, dlp ∈ t.answers)
    (hmem : ∀ c conn, t.mem c = some conn →
      s.mem c = some conn ∨ Connections.Sourced okay t.answers conn)
    (hframes : ∀ f ∈ t.frames, f ∈ s.frames ∨ ∀ dlp, f.lookup = some dlp → dlp ∈ t.answers) :
    t.Sourced okay where
  mem := by
    intro c conn hconn
    rcases hmem c conn hconn with hold | hnew
    · exact (h.mem c conn hold).mono hanswers
    · exact hnew
  passed := by
    rw [hpassed]
    exact fun c conn hin => (h.passed c conn hin).mono hanswers
  frames := by
    intro f hf dlp hdlp
    rcases hframes f hf with hold | hnew
    · exact hanswers dlp (h.frames f hold dlp hdlp)
    · exact hnew dlp hdlp

theorem State.Sourced.write (h : s.Sourced okay) (hconn : Connections.Sourced okay s.answers conn) :
    (s.write c conn).Sourced okay := by
  refine h.of_mem rfl (fun _ hdlp => hdlp) (fun j b hb => ?_) fun f hf => .inl hf
  by_cases hjc : j = c
  · subst hjc
    obtain rfl : conn = b := by simpa [State.write] using hb
    exact .inr hconn
  · exact .inl (by simpa [State.write, Function.update_of_ne hjc] using hb)

theorem State.Sourced.withFrames (h : s.Sourced okay) {fs : List Frame}
    (hfs : ∀ f ∈ fs, f ∈ s.frames ∨ ∀ dlp, f.lookup = some dlp → dlp ∈ s.answers) :
    State.Sourced okay { s with frames := fs } :=
  h.of_mem rfl (fun _ hdlp => hdlp) (fun _ _ hb => .inl hb) hfs

theorem State.Sourced.push (h : s.Sourced okay) {f : Frame} (hf : f.lookup = none) :
    State.Sourced okay { s with frames := f :: s.frames } := by
  refine h.withFrames fun g hg => ?_
  rcases List.mem_cons.mp hg with rfl | hg
  · refine .inr fun dlp hdlp => ?_
    rw [hf] at hdlp
    cases hdlp
  · exact .inl hg

theorem State.Sourced.broken (h : s.Sourced okay) : s.broken.Sourced okay :=
  ⟨h.mem, h.passed, h.frames⟩

theorem State.Sourced.checkIdent (h : s.Sourced okay) (c : ℕ) :
    (s.checkIdent c).1.Sourced okay := by
  unfold State.checkIdent
  split
  · exact h.broken
  · split
    · exact h
    · exact h.push rfl

theorem State.Sourced.initLookups (h : s.Sourced okay) (c : ℕ) :
    (s.initLookups c).1.Sourced okay := by
  unfold State.initLookups
  split
  · exact h.broken
  · split
    · exact h.checkIdent c
    · exact h.push rfl

theorem State.Sourced.listen (h : s.Sourced okay) (peer : Peer) (stage1 : Option (Bool × Bool))
    (ssl : Bool) : (s.listen peer stage1 ssl).1.Sourced okay := by
  unfold State.listen
  cases stage1 with
  | none => exact ⟨h.mem, h.passed, h.frames⟩
  | some skips =>
    have hnew : ∀ conn : Connection, conn.host = conn.peer.text → State.Sourced okay
        { s.write s.next conn with next := s.next + 1, stage1 := s.next :: s.stage1 } := by
      intro conn hhost
      have hwrite := @State.Sourced.write okay s s.next conn h (sourced_of_address hhost)
      exact ⟨hwrite.mem, hwrite.passed, hwrite.frames⟩
    dsimp only
    split
    · exact hnew _ rfl
    · exact (hnew _ rfl).initLookups s.next

theorem State.Sourced.lookupTurn {dlp : DnsLookup} {fs : List Frame} (h : s.Sourced okay)
    (hframes : s.frames = .walk dlp (some c) :: fs) (hp : s.lookupTurn c okay dlp fs = some p) :
    p.1.Sourced okay := by
  have hdlp : dlp ∈ s.answers :=
    h.frames (.walk dlp (some c)) (hframes ▸ List.mem_cons_self) dlp rfl
  have hstack : ∀ f : Frame, f.lookup = some dlp →
      State.Sourced okay { s with frames := f :: fs } := by
    intro f hf
    refine h.withFrames fun g hg => ?_
    rcases List.mem_cons.mp hg with rfl | hg
    · refine .inr fun dlp' hdlp' => ?_
      obtain rfl := Option.some.inj (hf.symm.trans hdlp')
      exact hdlp
    · exact .inl (hframes ▸ List.mem_cons_of_mem _ hg)
  unfold State.lookupTurn at hp
  split at hp
  · obtain rfl := Option.some.inj hp
    exact h.broken
  · rename_i conn hconn
    obtain ⟨outcome, houtcome, rfl⟩ := Option.map_eq_some_iff.mp hp
    cases outcome with
    | skipped => exact hstack (.walk dlp (s.nextOf c)) rfl
    | settled conn' =>
      exact (hstack (.walk dlp (s.nextOf c)) rfl).write ((h.mem c conn hconn).settled hdlp houtcome)
    | asks conn' =>
      exact (hstack (.resolving dlp c (s.nextOf c)) rfl).write (Sourced.asks houtcome)

theorem State.Sourced.returned (h : s.Sourced okay) (hp : s.returned = some p) :
    p.1.Sourced okay := by
  have hpop : ∀ {f fs}, s.frames = f :: fs → State.Sourced okay { s with frames := fs } := by
    intro f fs hframes
    exact h.withFrames fun g hg => .inl (hframes ▸ List.mem_cons_of_mem f hg)
  unfold State.returned at hp
  split at hp
  · rename_i dlp c c2 fs hframes
    obtain rfl := Option.some.inj hp
    refine h.withFrames fun g hg => ?_
    rcases List.mem_cons.mp hg with rfl | hg
    · refine .inr fun dlp' hdlp' => ?_
      exact h.frames (.resolving dlp c c2) (hframes ▸ List.mem_cons_self) dlp' hdlp'
    · exact .inl (hframes ▸ List.mem_cons_of_mem _ hg)
  · rename_i c fs hframes
    obtain rfl := Option.some.inj hp
    exact (hpop hframes).checkIdent c
  · rename_i c fs hframes
    obtain rfl := Option.some.inj hp
    exact hpop hframes
  · cases hp

theorem State.Sourced.identHook (h : s.Sourced okay) (sock : ℕ) (answer : Bytes) :
    (s.identHook sock answer).1.Sourced okay := by
  unfold State.identHook
  split
  · exact h
  · split
    · exact h.broken
    · rename_i conn hconn
      exact h.write ((h.mem _ conn hconn).congr rfl rfl rfl rfl)

/-- What is in memory when a connection is destroyed was there before. -/
theorem State.mem_of_destroy {j : ℕ} (h : (s.destroy c).mem j = some conn) :
    s.mem j = some conn := by
  have hjc : j ≠ c := by
    rintro rfl
    simp [State.destroy] at h
  simpa [State.destroy, Function.update_of_ne hjc] using h

theorem State.Sourced.destroy (h : s.Sourced okay) (c : ℕ) : (s.destroy c).Sourced okay :=
  h.of_mem rfl (fun _ hdlp => hdlp) (fun _ _ hb => .inl (State.mem_of_destroy hb)) fun _ hf =>
    .inl hf

theorem State.Sourced.part {a : Action} (h : s.Sourced okay) (hp : s.part okay a = some p) :
    p.1.Sourced okay := by
  cases a with
  | accept peer stage1 ssl refuse =>
    obtain ⟨-, rfl⟩ := Option.ite_some_none_eq_some.mp hp
    exact h.listen peer stage1 ssl
  | handshake c refuse =>
    obtain ⟨-, hp⟩ := Option.ite_none_right_eq_some.mp hp
    obtain ⟨conn, hconn, hp⟩ := Option.bind_eq_some_iff.mp hp
    obtain ⟨-, rfl⟩ := Option.ite_some_none_eq_some.mp hp
    have hwrite : State.Sourced okay (s.write c { conn with sslInit := false }) :=
      h.write ((h.mem c conn hconn).congr rfl rfl rfl rfl)
    exact hwrite.initLookups c
  | answer dlp =>
    obtain ⟨-, rfl⟩ := Option.ite_some_none_eq_some.mp hp
    refine h.of_mem rfl (fun _ hdlp => List.mem_cons_of_mem dlp hdlp) (fun _ _ hb => .inl hb)
      fun f hf => ?_
    rcases List.mem_cons.mp hf with rfl | hf
    · refine .inr fun dlp' hdlp' => ?_
      obtain rfl := Option.some.inj hdlp'
      exact List.mem_cons_self
    · exact .inl hf
  | next refuse =>
    simp only [State.part] at hp
    split at hp
    · rename_i dlp fs hframes
      obtain rfl := Option.some.inj hp
      exact h.withFrames fun g hg => .inl (hframes ▸ List.mem_cons_of_mem _ hg)
    · rename_i dlp c fs hframes
      exact h.lookupTurn hframes hp
    · cases hp
  | ret refuse => exact h.returned hp
  | ident sock answer refuse =>
    obtain ⟨-, rfl⟩ := Option.ite_some_none_eq_some.mp hp
    exact h.identHook sock answer
  | close c =>
    obtain ⟨-, rfl⟩ := Option.ite_some_none_eq_some.mp hp
    exact h.destroy c
  | register c =>
    obtain ⟨-, rfl⟩ := Option.ite_some_none_eq_some.mp hp
    exact ⟨h.mem, h.passed, h.frames⟩
  | link peer =>
    obtain ⟨-, rfl⟩ := Option.ite_some_none_eq_some.mp hp
    have hwrite : State.Sourced okay
        (s.write s.next { Connection.new peer with user := bytes "<unknown>" }) :=
      h.write (sourced_of_address rfl)
    exact ⟨hwrite.mem, hwrite.passed, hwrite.frames⟩

/-- Whoever passes the test is named. -/
theorem State.Sourced.stage2Done (h : s.Sourced okay) (hconn : s.mem c = some conn)
    (hdone : conn.isDone = true) (refuse : Bool) :
    (s.stage2Done c conn refuse).Sourced okay := by
  have hlog : State.Sourced okay { s with passed := (c, conn) :: s.passed } := by
    refine ⟨h.mem, fun j b hin => ?_, h.frames⟩
    rcases List.mem_cons.mp hin with heq | hin
    · obtain ⟨-, rfl⟩ := Prod.mk.inj heq
      exact (h.mem c b hconn).named hdone
    · exact h.passed j b hin
  unfold State.stage2Done
  dsimp only
  split
  · exact hlog.destroy c
  · exact ⟨hlog.mem, hlog.passed, hlog.frames⟩

theorem State.Sourced.step {a : Action} (h : s.Sourced okay) (hs : s.step okay a = some t) :
    t.Sourced okay := by
  unfold State.step at hs
  split at hs
  · cases hs
  · obtain ⟨⟨u, tested⟩, hp, rfl⟩ := Option.map_eq_some_iff.mp hs
    have hu : u.Sourced okay := h.part hp
    cases tested with
    | none => exact hu
    | some c =>
      show (u.test c a.refuses).Sourced okay
      unfold State.test
      split
      · exact hu.broken
      · rename_i conn hconn
        split
        · rename_i hdone
          exact hu.stage2Done hconn hdone.1 a.refuses
        · exact hu

end

/-- Whatever comes to stage 2 has the address of its peer for a host, or a confirmed name. -/
theorem named_of_run {as : List Action} {s : State} {c : ℕ} {conn : Connection}
    (hrun : Run.run (State.step okay) .start as = some s) (hpassed : (c, conn) ∈ s.passed) :
    Named okay s.answers conn := by
  have hsourced : s.Sourced okay := Run.run_induction (I := fun _ s => s.Sourced okay)
    State.sourced_start (fun _ _ _ _ h hs => h.step hs) hrun
  exact hsourced.passed c conn hpassed

theorem named_of_run_visit :
    ∃ s conn, Run.run (State.step hostMap) .start visit = some s ∧ (0, conn) ∈ s.passed ∧
      conn.host = bytes "host.net" ∧ Named hostMap s.answers conn := by
  have hrun : ((Run.run (State.step hostMap) .start visit).any fun s =>
      s.passed.any fun e => e.1 == 0 && e.2.host == bytes "host.net") = true := by
    decide +kernel
  obtain ⟨s, hs, hany⟩ := (Option.any_eq_true _ _).mp hrun
  obtain ⟨⟨c, conn⟩, hpassed, hconn⟩ := List.any_eq_true.mp hany
  rw [Bool.and_eq_true, beq_iff_eq, beq_iff_eq] at hconn
  obtain ⟨rfl, hhost⟩ := hconn
  exact ⟨s, conn, hs, hpassed, hhost, named_of_run hs hpassed⟩

end Connections

end Ithildin
