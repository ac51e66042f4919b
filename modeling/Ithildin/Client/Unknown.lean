import Ithildin.Client.Counters

/-!
# The count of unknown clients

`create_client` flags every client as unknown and counts it; `register_client` clears the flag of
our own clients only.

* `unknownExact_iff`: the count is right as long as all registered clients are ours;
* `unknown_of_run_iff`: it is right throughout a run just when no client of another server registers
  in it.
-/

namespace Ithildin

namespace ClientStats

variable {u : Umodes} {s : ClientStats} {id : ℕ} {cli cli' : StatClient}

/-- Every client that is not registered is counted as unknown, and no other. -/
def UnknownExact (s : ClientStats) : Prop :=
  s.servUnk = s.census (fun cli => !cli.registered) ∧ 0 ≤ s.servUnk

/-- The client that registers is one of ours. -/
def Ours (s : ClientStats) : StatAction → Prop
  | .register id _ => ∀ cli, s.mem id = some cli → cli.mine = true
  | .introduce id _ _ _ => ∀ cli, s.mem id = some cli → cli.mine = true
  | _ => True

/-- All registered clients are ours. -/
def AllOurs (s : ClientStats) : Prop :=
  ∀ id ∈ s.clients, ∀ cli, s.mem id = some cli → cli.registered = true → cli.mine = true

/-- The clients registered at other servers are counted as unknown too. -/
theorem Counted.unknownExact_iff (h : s.Counted) : s.UnknownExact ↔ s.AllOurs := by
  have hunk : s.census (·.unknown) = s.census (fun cli => !(cli.registered && cli.mine)) := by
    refine Census.count_congr fun id hid cli hc => ?_
    obtain ⟨c, hc', -, hunknown⟩ := h.live id hid
    obtain rfl : cli = c := Option.some.inj (hc.symm.trans hc')
    exact hunknown
  have hsplit : s.census (fun cli => !(cli.registered && cli.mine)) = _ :=
    Census.count_eq_add (·.registered)
  have hnot : s.census (fun cli => !(cli.registered && cli.mine) && !cli.registered) =
      s.census fun cli => !cli.registered :=
    Census.count_congr fun _ _ cli _ => by cases cli.registered <;> simp
  have hremote : s.census (fun cli => !(cli.registered && cli.mine) && cli.registered) = 0 ↔
      s.AllOurs := by
    refine Census.count_eq_zero_iff.trans (forall₄_congr fun _ _ cli _ => ?_)
    cases cli.registered <;> cases cli.mine <;> simp
  rw [← hremote, UnknownExact]
  have hserv := h.servUnk
  change s.census (fun cli => !(cli.registered && cli.mine)) =
    s.census (fun cli => !(cli.registered && cli.mine) && cli.registered) +
    s.census (fun cli => !(cli.registered && cli.mine) && !cli.registered) at hsplit
  omega

/-- Nothing but one client has changed. -/
theorem AllOurs.iff_of_put (h : s.AllOurs) {s' : ClientStats} (hi : id ∈ s.clients)
    (hclients : s'.clients = s.clients) (hself : s'.mem id = some cli')
    (hmem : ∀ j, j ≠ id → s'.mem j = s.mem j) :
    s'.AllOurs ↔ (cli'.registered = true → cli'.mine = true) := by
  rw [AllOurs, hclients]
  refine ⟨fun h' => h' id hi cli' hself, fun h' j hj c hc hreg => ?_⟩
  by_cases hji : j = id
  · rw [hji, hself] at hc
    obtain rfl := Option.some.inj hc
    exact h' hreg
  · rw [hmem j hji] at hc
    exact h j hj c hc hreg

/-- Fewer clients, none of which has changed. -/
theorem AllOurs.mono (h : s.AllOurs) {s' : ClientStats}
    (hclients : ∀ j ∈ s'.clients, j ∈ s.clients ∧ s'.mem j = s.mem j) : s'.AllOurs := by
  intro j hj c hc hreg
  obtain ⟨hj', hmem⟩ := hclients j hj
  exact h j hj' c (hmem ▸ hc) hreg

theorem AllOurs.destroy (h : s.AllOurs) (hnodup : s.clients.Nodup) (ans : UInt8 → UInt8 → Bool) :
    (s.destroyClient u id cli ans).AllOurs := by
  refine h.mono fun j hj => ?_
  have hclients : (s.destroyClient u id cli ans).clients = s.clients.erase id := by
    rw [destroyClient]
    cases cli.registered <;> rfl
  rw [hclients] at hj
  have hne : j ≠ id := (hnodup.mem_erase_iff.mp hj).1
  refine ⟨List.mem_of_mem_erase hj, ?_⟩
  rw [destroyClient]
  cases cli.registered <;> exact Function.update_of_ne hne _ _

/-- One of ours registers. -/
theorem AllOurs.admit_iff (h : s.AllOurs) {s₁ : ClientStats} (hi : id ∈ s.clients)
    (hclients : s₁.clients = s.clients) (hmem : ∀ j, j ≠ id → s₁.mem j = s.mem j) :
    (s₁.welcome id cli).AllOurs ↔ cli.mine = true := by
  obtain ⟨hclients', hmem'⟩ := welcome_mem s₁ id cli
  refine (h.iff_of_put hi (hclients'.trans hclients) (by rw [hmem', Function.update_self])
    fun j hj => by rw [hmem', Function.update_of_ne hj, hmem j hj]).trans ?_
  simp

/-- Just the registration of a client of another server spoils the count. -/
theorem Counted.allOurs_step_iff {a : StatAction} {s' : ClientStats} (hs : s.Counted)
    (h : s.AllOurs) (hstep : ClientStats.step u s a = some s') :
    s'.AllOurs ↔ Ours s a := by
  cases a with
  | create mine conn =>
    obtain rfl := Option.some.inj hstep
    refine iff_of_true (fun j hj c hc hreg => ?_) trivial
    change Function.update s.mem s.fresh _ j = some c at hc
    rcases List.mem_cons.mp hj with rfl | hj
    · rw [Function.update_self] at hc
      obtain rfl := Option.some.inj hc
      cases hreg
    · rw [Function.update_of_ne (ne_of_mem_of_not_mem hj hs.fresh_notMem)] at hc
      exact h j hj c hc hreg
  | register id denied =>
    obtain ⟨cli, hc, hif⟩ := Option.bind_eq_some_iff.mp hstep
    obtain ⟨⟨hi, hreg⟩, ⟨⟩⟩ := Option.ite_none_right_eq_some.mp hif
    have hours : Ours s (.register id denied) ↔ cli.mine = true := by simp [Ours, hc]
    rw [registerClient, hours]
    split
    · rename_i hdenied
      -- only clients of ours are refused
      rw [Bool.and_eq_true, Bool.and_eq_true] at hdenied
      exact iff_of_true (h.destroy hs.nodup _) hdenied.1.1
    · exact h.admit_iff hi rfl fun _ _ => rfl
  | introduce id priv ans umodes =>
    obtain ⟨cli, hc, hif⟩ := Option.bind_eq_some_iff.mp hstep
    obtain ⟨⟨hi, hreg, -⟩, hmap⟩ := Option.ite_none_right_eq_some.mp hif
    obtain ⟨cli', hc', rfl⟩ := Option.map_eq_some_iff.mp hmap
    obtain ⟨m, hmem⟩ := userMode_mem u s id cli true priv ans umodes
    have hmine : cli'.mine = cli.mine := by
      rw [hmem, Function.update_self] at hc'
      obtain rfl := Option.some.inj hc'
      rfl
    have hours : Ours s (.introduce id priv ans umodes) ↔ cli.mine = true := by simp [Ours, hc]
    rw [hours, ← hmine]
    exact h.admit_iff hi rfl fun j hj => by rw [hmem, Function.update_of_ne hj]
  | umode id self priv ans modes =>
    obtain ⟨cli, hc, hif⟩ := Option.bind_eq_some_iff.mp hstep
    obtain ⟨⟨hi, hreg⟩, ⟨⟩⟩ := Option.ite_none_right_eq_some.mp hif
    obtain ⟨m, hmem⟩ := userMode_mem u s id cli self priv ans modes
    refine iff_of_true ?_ trivial
    have hself : (s.userMode u id cli self priv ans modes).mem id =
        some { cli with modes := m } := by rw [hmem, Function.update_self]
    have hclients : (s.userMode u id cli self priv ans modes).clients = s.clients := rfl
    exact (h.iff_of_put hi hclients hself fun j hj => by
      rw [hmem, Function.update_of_ne hj]).mpr fun _ => h id hi cli hc hreg
  | destroy id ans =>
    obtain ⟨cli, hc, hif⟩ := Option.bind_eq_some_iff.mp hstep
    obtain ⟨hi, ⟨⟩⟩ := Option.ite_none_right_eq_some.mp hif
    exact iff_of_true (h.destroy hs.nodup ans) trivial
  | forget id =>
    obtain ⟨cli, hc, hif⟩ := Option.bind_eq_some_iff.mp hstep
    obtain ⟨hhistory, ⟨⟩⟩ := Option.ite_none_right_eq_some.mp hif
    refine iff_of_true (h.mono fun j hj => ⟨hj, Function.update_of_ne ?_ _ _⟩) trivial
    rintro rfl
    obtain ⟨c, hc', hfalse, -⟩ := hs.live j hj
    obtain rfl := Option.some.inj (hc.symm.trans hc')
    rw [hhistory] at hfalse
    cases hfalse

/-- The unknown clients are counted exactly in every state of a run just when every client that
registers in it is one of ours. -/
theorem unknown_of_run_iff (u : Umodes) (as : List StatAction) (t : ClientStats)
    (hrun : Run.run (step u) start as = some t) :
    (∀ before behind s, as = before ++ behind → Run.run (step u) start before = some s →
      s.UnknownExact) ↔ Run.Along (step u) Ours start as := by
  refine Run.forall_reached_iff (I := Counted) (fun s a s' h hstep => h.step hstep) ?_
    counted_start (by simp [UnknownExact, start, census]) hrun
  intro s a s' h hp hstep
  rw [(h.step hstep).unknownExact_iff]
  exact h.allOurs_step_iff (h.unknownExact_iff.mp hp) hstep

theorem unknown_of_run_iff_oneVisit : ∃ t, Run.run (step twoModes) start oneVisit = some t ∧
    ∀ before behind s, oneVisit = before ++ behind →
      Run.run (step twoModes) start before = some s → s.UnknownExact := by
  have hsome : (Run.run (step twoModes) start oneVisit).isSome := by decide
  obtain ⟨t, hrun⟩ := Option.isSome_iff_exists.mp hsome
  refine ⟨t, hrun, (unknown_of_run_iff twoModes oneVisit t hrun).mpr ?_⟩
  refine ⟨trivial, fun s hs => ⟨?_, fun _ _ => ⟨trivial, fun _ _ => ⟨trivial, fun _ _ => ?_⟩⟩⟩⟩
  case refine_2 => trivial
  obtain rfl := Option.some.inj hs
  rintro cli hcli
  obtain rfl := Option.some.inj hcli
  rfl

/-- A client that another server introduces stays unknown. -/
theorem unknown_fails : ¬ ∀ (u : Umodes) (as : List StatAction) (s : ClientStats),
    Run.run (step u) start as = some s → s.UnknownExact := by
  intro hall
  have hvals : (Run.run (step twoModes) start [.create false false, .register 0 false]).map
      (fun s => (s.servUnk, s.census fun cli => !cli.registered)) = some (1, 0) := by
    decide
  obtain ⟨s, hrun, hs⟩ := Option.map_eq_some_iff.mp hvals
  obtain ⟨hunk, hcensus⟩ := Prod.mk.inj hs
  have hbad := (hall twoModes _ s hrun).1
  rw [hunk, hcensus] at hbad
  cases hbad

end ClientStats

end Ithildin
