import Ithildin.Socket.Accounts

/-!
# One pass of the poller

The loop of `poll_sockets` follows the list of all sockets while hooks create and destroy sockets.
Over every such pass, whatever the hooks call: the sockets that were there when `poll()` returned
have one turn each, in the order of the list; in its turn the hook of a socket is called exactly if
the socket is due; no socket is freed before the pass is over, and then exactly the dead ones are.
-/

namespace Ithildin

namespace Sockets

/-! ### The list while the loop runs -/

/-- A call may put sockets in front of the list, and nothing else. -/
theorem Moves.frame {s s' : Sys} {l : List Loss} (h : Moves s l s') :
    s'.phase = s.phase ∧ s'.others = s.others ∧ ∃ new, s'.allsockets = new ++ s.allsockets := by
  induction h with
  | create s => exact ⟨rfl, rfl, [s.next], rfl⟩
  | trans h h' ih ih' =>
    obtain ⟨hphase, hothers, new, hnew⟩ := ih
    obtain ⟨hphase', hothers', new', hnew'⟩ := ih'
    exact ⟨hphase'.trans hphase, hothers'.trans hothers, new' ++ new,
      by rw [hnew', hnew, List.append_assoc]⟩
  | _ => exact ⟨rfl, rfl, [], rfl⟩

theorem listNext_append {before behind : List ℕ} {p : ℕ} (h : p ∉ before) :
    Sys.listNext (before ++ p :: behind) p = behind.head? := by
  induction before with
  | nil => rw [List.nil_append, Sys.listNext, if_pos rfl]
  | cons q before ih =>
    rw [List.mem_cons, not_or] at h
    rw [List.cons_append, Sys.listNext, if_neg (Ne.symm h.1), ih h.2]

/-! ### The dead sockets -/

/-- The socket is there and dead. -/
def Sys.isDead (s : Sys) (p : ℕ) : Bool := (s.mem p).any (·.dead)

theorem reapFrom_eq {l : List ℕ} {s s' : Sys} (hall : s.allsockets.Nodup) (hl : l.Nodup)
    (h : Sys.reapFrom l s = some s') :
    s' = { s with
      mem := fun p => if p ∈ l ∧ s.isDead p then none else s.mem p
      allsockets := s.allsockets.filter fun p => ¬ (p ∈ l ∧ s.isDead p) } := by
  induction l generalizing s with
  | nil =>
    obtain rfl := Option.some.inj h
    simp
  | cons p l ih =>
    obtain ⟨hp, hl⟩ := List.nodup_cons.1 hl
    simp only [Sys.reapFrom, Option.bind_eq_bind, Option.bind_eq_some_iff] at h
    obtain ⟨c, hc, h⟩ := h
    have hself : s.isDead p = c.dead := by rw [Sys.isDead, hc]; rfl
    split_ifs at h with hdead hfreed
    · have hkeep (q : ℕ) : (q ∈ p :: l ∧ s.isDead q = true) ↔ (q ∈ l ∧ s.isDead q = true) := by
        rw [List.mem_cons, or_and_right, or_iff_right]
        rintro ⟨rfl, hq⟩
        rw [hself] at hq
        simp [hq] at hdead
      rw [ih hall hl h]
      simp only [hkeep]
    · rw [ih (hall.erase p) hl h]
      have hrest (q : ℕ) (hq : q ∈ l) (all : List ℕ) :
          Sys.isDead { s with mem := Function.update s.mem p none, allsockets := all } q =
            s.isDead q := by
        simp only [Sys.isDead, Function.update_of_ne (ne_of_mem_of_not_mem hq hp)]
      have hpdead : s.isDead p = true := by simpa [hself] using hdead
      refine Sys.ext (funext fun q => ?_) ?_ rfl rfl rfl rfl rfl rfl rfl
      · dsimp only
        by_cases hq : q = p
        · subst hq
          simp [hp, hpdead]
        · by_cases hql : q ∈ l
          · rw [hrest q hql _, Function.update_of_ne hq]
            simp [hql]
          · simp [hql, hq]
      · dsimp only
        rw [hall.erase_eq_filter, List.filter_filter]
        refine List.filter_congr fun q _ => ?_
        by_cases hq : q = p
        · subst hq
          simp [hpdead]
        · by_cases hql : q ∈ l
          · rw [hrest q hql _]
            simp [hql, hq]
          · simp [hql, hq]

/-- `reap_dead_sockets` frees just the dead sockets of the list. -/
theorem reapDeadSockets_eq {s s' : Sys} {losses : List Loss} (hbooks : Books s losses)
    (h : s.reapDeadSockets = some s') :
    s' = { s with
      mem := fun p => if s.isDead p then none else s.mem p
      allsockets := s.allsockets.filter fun p => !s.isDead p } := by
  rw [reapFrom_eq hbooks.nodup hbooks.nodup h]
  refine Sys.ext (funext fun q => ?_) (List.filter_congr fun q hq => ?_) rfl rfl rfl rfl rfl rfl rfl
  · by_cases hq : q ∈ s.allsockets
    · simp [hq]
    · have hnone : s.mem q = none := by
        rw [hbooks.live, Bool.not_eq_true, Option.isSome_eq_false_iff, Option.isNone_iff_eq_none]
          at hq
        exact hq
      simp [hq, hnone]
  · simp [hq]

/-! ### Turns -/

/-- A turn of a socket in the loop. -/
structure Turn where
  sp : ℕ
  due : Bool
  /-- Is the hook called? -/
  called : Bool

/-- The turns of a step. -/
def turns (s : Sys) : Act → List Turn
  | .visit errno =>
      match s.phase with
      | .turn sp => [⟨sp, s.due sp, (s.visit sp errno).any fun s' => s'.phase = .hook sp⟩]
      | _ => []
  | _ => []

/-- The loop runs over the sockets `l`. -/
structure Passing (l : List ℕ) (s : Sys) (ts : List Turn) : Prop where
  grown : s.phase ≠ .rest → ∃ new, s.allsockets = new ++ l
  place : match s.phase with
    | .rest => ts.map Turn.sp = l
    | .turn sp => ∃ behind, l = ts.map Turn.sp ++ sp :: behind
    | .hook sp => ∃ before behind, ts.map Turn.sp = before ++ [sp] ∧ l = before ++ sp :: behind
    | .down => ts.map Turn.sp <+: l
  called : s.phase ≠ .down → ∀ turn ∈ ts, turn.called = turn.due

namespace Passing

variable {l : List ℕ} {s s' : Sys} {ts : List Turn}

theorem moves (h : Passing l s ts) {losses : List Loss} (hmoves : Moves s losses s') :
    Passing l s' ts := by
  obtain ⟨hphase, -, new, hnew⟩ := hmoves.frame
  refine ⟨fun hne => ?_, hphase.symm ▸ h.place, hphase.symm ▸ h.called⟩
  obtain ⟨new', hnew'⟩ := h.grown (hphase ▸ hne)
  exact ⟨new ++ new', by rw [hnew, hnew', List.append_assoc]⟩

/-- The loop goes on from a socket that has had its turn. -/
theorem past {losses : List Loss} (hbooks : Books s losses) {before behind new : List ℕ} {sp : ℕ}
    (hall : s.allsockets = new ++ l) (hl : l = before ++ sp :: behind)
    (hts : ts.map Turn.sp = before ++ [sp]) (hcalled : ∀ turn ∈ ts, turn.called = turn.due) :
    Passing l (s.past sp) ts := by
  have hlist : s.allsockets = (new ++ before) ++ sp :: behind := by
    rw [hall, hl, List.append_assoc]
  have hnot : sp ∉ new ++ before := by
    have hnodup := hbooks.nodup
    rw [hlist] at hnodup
    exact fun hin => (List.disjoint_of_nodup_append hnodup) hin List.mem_cons_self
  rw [Sys.past, hlist, listNext_append hnot]
  cases behind with
  | nil => exact ⟨fun hne => absurd rfl hne, hts.trans hl.symm, fun _ => hcalled⟩
  | cons q behind =>
    refine ⟨fun _ => ⟨new, hall⟩, ⟨behind, ?_⟩, fun _ => hcalled⟩
    rw [hts, hl, List.append_assoc]
    rfl

theorem visit {losses : List Loss} (hbooks : Books s losses) (h : Passing l s ts) {sp : ℕ}
    (hphase : s.phase = .turn sp) {errno : Option ℤ} (hvisit : s.visit sp errno = some s') :
    Passing l s' (ts ++ turns s (.visit errno)) := by
  obtain ⟨hgrown, hplace, hcalled⟩ := h
  rw [hphase] at hplace
  obtain ⟨behind, hl⟩ := hplace
  have hcalled := hcalled (by rw [hphase]; exact Phase.noConfusion)
  obtain ⟨new, hnew⟩ := hgrown (by rw [hphase]; exact Phase.noConfusion)
  obtain ⟨s₁, hmoves, hs'⟩ := visit_moves hvisit
  obtain ⟨-, -, new₁, hnew₁⟩ := hmoves.frame
  have hall : s₁.allsockets = (new₁ ++ new) ++ l := by rw [hnew₁, hnew, List.append_assoc]
  have hturns : turns s (.visit errno) = [⟨sp, s.due sp, s'.phase = .hook sp⟩] := by
    rw [turns, hphase]
    dsimp only
    rw [hvisit]
    rfl
  have hmap : (ts ++ turns s (.visit errno)).map Turn.sp = ts.map Turn.sp ++ [sp] := by
    rw [hturns, List.map_append]
    rfl
  have hagree (hdue : decide (s'.phase = .hook sp) = s.due sp) :
      ∀ turn ∈ ts ++ turns s (.visit errno), turn.called = turn.due := by
    intro turn hturn
    rcases List.mem_append.1 hturn with hturn | hturn
    · exact hcalled turn hturn
    · rw [hturns, List.mem_singleton] at hturn
      rw [hturn]
      exact hdue
  rcases hs' with rfl | rfl
  · refine ⟨fun _ => ⟨_, hall⟩, ?_, fun hne => absurd rfl hne⟩
    change (ts ++ turns s (.visit errno)).map Turn.sp <+: l
    rw [hmap]
    exact ⟨behind, by rw [hl, List.append_assoc]; rfl⟩
  · cases hdue : s.due sp with
    | true =>
      rw [hdue] at hagree
      refine ⟨fun _ => ⟨_, hall⟩, ⟨ts.map Turn.sp, behind, hmap, hl⟩, fun _ => hagree ?_⟩
      exact decide_eq_true rfl
    | false =>
      rw [hdue] at hagree
      have hbooks₁ := hbooks.moves hmoves
      refine past hbooks₁ hall hl hmap (hagree (decide_eq_false ?_))
      rw [if_neg Bool.false_ne_true, Sys.past]
      cases Sys.listNext s₁.allsockets sp <;> exact Phase.noConfusion

theorem finish {losses : List Loss} (hbooks : Books s losses) (h : Passing l s ts) {sp : ℕ}
    (hphase : s.phase = .hook sp) (hfinish : s.finish sp = some s') : Passing l s' ts := by
  obtain ⟨hgrown, hplace, hcalled⟩ := h
  rw [hphase] at hplace
  obtain ⟨before, behind, hts, hl⟩ := hplace
  obtain ⟨new, hnew⟩ := hgrown (by rw [hphase]; exact Phase.noConfusion)
  obtain ⟨s₁, hmoves, rfl⟩ := finish_moves hfinish
  obtain ⟨-, -, new₁, hnew₁⟩ := hmoves.frame
  have hall : s₁.allsockets = (new₁ ++ new) ++ l := by rw [hnew₁, hnew, List.append_assoc]
  exact past (hbooks.moves hmoves) hall hl hts
    (hcalled (by rw [hphase]; exact Phase.noConfusion))

/-- A step that leaves the list and the phase alone. -/
theorem congr (h : Passing l s ts) (hphase : s'.phase = s.phase)
    (hall : s'.allsockets = s.allsockets) : Passing l s' ts :=
  ⟨fun hne => hall.symm ▸ h.grown (hphase ▸ hne), hphase.symm ▸ h.place, hphase.symm ▸ h.called⟩

theorem step {losses : List Loss} (hbooks : Books s losses) (h : Passing l s ts) {a : Act}
    (ha : ∀ answer, a ≠ .poll answer) (hstep : step s a = some s') :
    Passing l s' (ts ++ turns s a) := by
  have hno (hnone : turns s a = []) (hpassing : Passing l s' ts) :
      Passing l s' (ts ++ turns s a) := by
    rw [hnone, List.append_nil]
    exact hpassing
  cases a with
  | call c => exact hno rfl (h.moves (call_moves hstep))
  | adjust n =>
    obtain rfl := Option.some.inj hstep
    refine hno rfl (h.congr ?_ ?_) <;> · rw [Sys.adjustMaxsockets]; dsimp only; split_ifs <;> rfl
  | otherOpen =>
    obtain rfl := Option.some.inj hstep
    exact hno rfl (h.congr rfl rfl)
  | otherClose n =>
    obtain rfl := Option.some.inj hstep
    refine hno rfl (h.congr ?_ ?_) <;> split_ifs <;> rfl
  | poll answer => exact absurd rfl (ha answer)
  | visit errno =>
    rw [Sockets.step] at hstep
    split at hstep
    · rename_i sp hphase
      exact h.visit hbooks hphase hstep
    · rename_i hphase
      obtain rfl := Option.some.inj hstep
      refine hno ?_ h
      rw [turns]
      split
      · rename_i sp hturn
        exact absurd hturn (hphase sp)
      · rfl
  | done =>
    rw [Sockets.step] at hstep
    refine hno rfl ?_
    split at hstep
    · rename_i sp hphase
      exact h.finish hbooks hphase hstep
    · obtain rfl := Option.some.inj hstep
      exact h
  | reap =>
    rw [Sockets.step] at hstep
    refine hno rfl ?_
    split_ifs at hstep with hphase
    · have hs' := reapDeadSockets_eq hbooks hstep
      have hrest : s'.phase = .rest := by rw [hs', hphase]
      obtain ⟨-, hplace, hcalled⟩ := h
      rw [hphase] at hplace
      refine ⟨fun hne => absurd hrest hne, ?_, fun _ => hcalled ?_⟩
      · rw [hrest]
        exact hplace
      · rw [hphase]
        exact Phase.noConfusion
    · obtain rfl := Option.some.inj hstep
      exact h

/-- The loop begins. -/
theorem pollSockets {s : Sys} (hrest : s.phase = .rest) (answer : ℕ → Revents) :
    Passing (if s.reports answer then s.allsockets else []) (s.pollSockets answer) [] := by
  rw [Sys.pollSockets]
  cases s.reports answer with
  | false =>
    refine ⟨fun hne => absurd hrest hne, ?_, fun _ turn hturn => by cases hturn⟩
    rw [if_neg Bool.false_ne_true]
    dsimp only
    rw [hrest]
    rfl
  | true =>
    rw [if_pos rfl, if_pos rfl]
    cases hall : s.allsockets with
    | nil => exact ⟨fun hne => absurd rfl hne, rfl, fun _ turn hturn => by cases hturn⟩
    | cons p l =>
      exact ⟨fun _ => ⟨[], rfl⟩, ⟨l, rfl⟩, fun _ turn hturn => by cases hturn⟩

end Passing

/-- One pass, whatever the hooks call: every socket that was there when something was reported has
one turn, in the order of the list; its hook is called exactly if it is due then; no socket is freed
while the loop runs, and the dead ones are when it is over. -/
theorem pass_turns {others : List ℕ} (hothers : others.Nodup) {maxsockets : ℕ}
    {before : List Act} {s : Sys}
    (hbefore : Run.run step (start others maxsockets) before = some s) (hrest : s.phase = .rest)
    {answer : ℕ → Revents} {as : List Act} (has : ∀ answer, Act.poll answer ∉ as) {t : Sys}
    (hrun : Run.run step s (.poll answer :: as) = some t) :
    let ts := Run.log step turns s (.poll answer :: as)
    let l := if s.reports answer then s.allsockets else []
    ts.map Turn.sp <+: l ∧ (t.phase = .rest → ts.map Turn.sp = l) ∧
    (t.phase ≠ .down → ∀ turn ∈ ts, turn.called = turn.due) ∧
    (t.phase ≠ .rest → ∃ new, t.allsockets = new ++ l) ∧
    ∀ u, t.phase = .rest → step t .reap = some u →
      u.allsockets = t.allsockets.filter (fun p => !t.isDead p) ∧
      ∀ p, u.mem p = if t.isDead p then none else t.mem p := by
  intro ts l
  obtain ⟨s₁, hs₁, hrun⟩ := Run.run_cons_eq_some.1 hrun
  have hpoll : s.pollSockets answer = s₁ := by
    rw [step, if_pos hrest] at hs₁
    exact Option.some.inj hs₁
  have hbooks := run_books_of_nodup hothers hbefore
  have hlog : ts = Run.log step turns s₁ as := by
    rw [show ts = _ from Run.log_cons hs₁]
    rfl
  have hstart : (∃ losses, Books s₁ losses) ∧ Passing l s₁ [] := by
    rw [← hpoll]
    exact ⟨⟨_, hbooks.pollSockets answer⟩, Passing.pollSockets hrest answer⟩
  have hpass : (∃ losses, Books t losses) ∧ Passing l t ([] ++ Run.log step turns s₁ as) := by
    refine Run.run_log (I := fun s ts => (∃ losses, Books s losses) ∧ Passing l s ts) ?_ hstart hrun
    rintro s a ha s' ts ⟨⟨losses, hbooks⟩, hpassing⟩ hstep
    exact ⟨⟨_, hbooks.step hstep⟩,
      hpassing.step hbooks (fun answer heq => has answer (heq ▸ ha)) hstep⟩
  obtain ⟨⟨losses, hbooks⟩, hgrown, hplace, hcalled⟩ := hpass
  rw [List.nil_append, ← hlog] at hplace hcalled
  refine ⟨?_, fun hphase => ?_, hcalled, hgrown, fun u hphase hreap => ?_⟩
  · split at hplace
    · exact hplace ▸ List.prefix_rfl
    · obtain ⟨behind, hl⟩ := hplace
      exact ⟨_, hl.symm⟩
    · obtain ⟨front, behind, hts, hl⟩ := hplace
      exact ⟨behind, by rw [hts, hl, List.append_assoc]; rfl⟩
    · exact hplace
  · rw [hphase] at hplace
    exact hplace
  · rw [step, if_pos hphase] at hreap
    have hu := reapDeadSockets_eq hbooks hreap
    exact ⟨by rw [hu], fun p => by rw [hu]⟩

/-- A listener whose hook takes a connection and then destroys the listener. -/
theorem pass_turns_example :
    let before : List Act := [.call .createSocket, .call (.setLocalAddress 0 none),
      .call (.openSocket 0 none none none), .call (.socketListen 0 none),
      .call (.socketMonitor 0 true false)]
    let answer : ℕ → Revents := fun n => ⟨n = 3, false, false⟩
    let as : List Act := [.visit none, .call (.socketAccept 0 none none none none),
      .call (.destroySocket 0 none), .done]
    ∃ s t, Run.run step (start [0, 1, 2] 8) before = some s ∧
      Run.run step s (.poll answer :: as) = some t ∧
      let ts := Run.log step turns s (.poll answer :: as)
      let l := if s.reports answer then s.allsockets else []
      ts.map Turn.sp <+: l ∧ (t.phase = .rest → ts.map Turn.sp = l) ∧
      (t.phase ≠ .down → ∀ turn ∈ ts, turn.called = turn.due) ∧
      (t.phase ≠ .rest → ∃ new, t.allsockets = new ++ l) ∧
      ∀ u, t.phase = .rest → step t .reap = some u →
        u.allsockets = t.allsockets.filter (fun p => !t.isDead p) ∧
        ∀ p, u.mem p = if t.isDead p then none else t.mem p := by
  intro before answer as
  obtain ⟨s, hs, hrest, hsome⟩ : ∃ s, Run.run step (start [0, 1, 2] 8) before = some s ∧
      s.phase = .rest ∧ (Run.run step s (.poll answer :: as)).isSome = true := ⟨_, rfl, rfl, rfl⟩
  obtain ⟨t, ht⟩ := Option.isSome_iff_exists.1 hsome
  exact ⟨s, t, hs, ht, pass_turns (by decide) hs hrest (by simp [as]) ht⟩

end Sockets

end Ithildin
