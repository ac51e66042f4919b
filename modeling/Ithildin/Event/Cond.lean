import Mathlib.Data.List.Basic
import Mathlib.Data.PNat.Defs

/-!
# Conditional events

`hook_event` runs the hooks of an event in list order; for a conditional event it combines what they
return into one number. Here is that combination: `condStep` is one turn of the loop, `condLoop` the
loop over the values returned and `hookCondEvent` the whole.

`Documented` is what the header promises of it. Since `HOOK_COND_NEVEROK` and `HOOK_COND_NOTOK` are
one number, a plain refusal stops the loop too.
-/

namespace Ithildin

namespace HookCond

/-! ### The numbers -/

/-- The action has been approved, but not all checks were performed. -/
def spass : ℤ := -2

/-- The action has been approved and all checks were performed. -/
def pass : ℤ := -1

/-- The action has been denied. -/
def fail : ℤ := 0

end HookCond

/-- What a hook of a conditional event says. -/
inductive HookCond
  | alwaysOk
  | ok
  | neverOk
  | notOk
  | neutral
  /-- A positive error number. -/
  | error (n : ℕ+)
  deriving DecidableEq

namespace HookCond

/-- The value a hook returns for it. -/
def code : HookCond → ℤ
  | alwaysOk => -4
  | ok => -3
  | neverOk => -2
  | notOk => -2
  | neutral => 0
  | error n => n

/-- Does the documentation have it decide the result? -/
def decides : HookCond → Bool
  | alwaysOk | neverOk => true
  | _ => false

/-- Does it refuse, without deciding? -/
def refuses : HookCond → Bool
  | notOk | error _ => true
  | _ => false

end HookCond

/-! ### The loop -/

/-- The variables `returned` and `econd` of `hook_event`. `NULL` is 0. -/
structure CondState where
  returned : ℤ
  econd : ℤ
  deriving DecidableEq

/-- What `returned` and `econd` are before the loop. -/
def condStart (noreturn : Bool) : CondState where
  returned := if noreturn then 0 else HookCond.pass
  econd := 0

/-- One turn of the loop, and whether it leaves the loop. -/
def condStep (c : CondState) (ret : ℤ) : CondState × Bool :=
  if ret = HookCond.alwaysOk.code then ({ c with returned := HookCond.spass }, true)
  else if ret = HookCond.neverOk.code then ({ c with returned := HookCond.fail }, true)
  else if ret = HookCond.notOk.code then ({ c with returned := HookCond.fail }, false)
  else if ret ≠ HookCond.ok.code ∧ ret ≠ HookCond.neutral.code then
    ({ returned := HookCond.fail, econd := ret }, false)
  else (c, false)

/-- The loop over what the hooks return. -/
def condLoop : CondState → List ℤ → CondState
  | c, [] => c
  | c, ret :: rets =>
    if (condStep c ret).2 then (condStep c ret).1 else condLoop (condStep c ret).1 rets

/-- What `hook_event` returns for the variables after the loop. -/
def condResult (c : CondState) : ℤ :=
  if c.returned = HookCond.fail ∧ c.econd ≠ 0 then c.econd else c.returned

/-- `hook_cond_event`, for a conditional event whose hooks return `rets`. -/
def hookCondEvent (noreturn : Bool) (rets : List ℤ) : ℤ :=
  condResult (condLoop (condStart noreturn) rets)

/-! ### The documentation -/

namespace HookCond

/-- A refusal: the general one or an error that a hook returned. -/
def Refusal (rs : List HookCond) (v : ℤ) : Prop :=
  v = fail ∨ ∃ n, error n ∈ rs ∧ v = (error n).code

/-- What the header says of the result `v` of hooks that say `rs`. -/
def Documented (rs : List HookCond) (v : ℤ) : Prop :=
  match rs.find? decides with
  | some alwaysOk => v = spass
  | some _ => Refusal rs v
  | none => if rs.any refuses then Refusal rs v else v = pass

/-! ### One turn and several -/

/-- Does the loop end with this hook? A plain refusal has the number of `neverOk`. -/
def stops : HookCond → Bool
  | alwaysOk | neverOk | notOk => true
  | _ => false

theorem stops_of_decides {r : HookCond} (h : r.decides = true) : r.stops = true := by
  cases r <;> simp_all [decides, stops]

theorem condStep_snd (c : CondState) (r : HookCond) : (condStep c r.code).2 = r.stops := by
  cases r with
  | error n =>
    have hn : (0 : ℤ) < n := by exact_mod_cast n.pos
    have h4 : ((n : ℕ) : ℤ) ≠ -4 := by omega
    have h2 : ((n : ℕ) : ℤ) ≠ -2 := by omega
    simp [condStep, code, stops, h4, h2]
  | _ => rfl

/-- An error is a refusal, and the last one is kept. -/
theorem condStep_error (c : CondState) (n : ℕ+) :
    (condStep c (error n).code).1 = { returned := fail, econd := (error n).code } := by
  have hn : (0 : ℤ) < n := by exact_mod_cast n.pos
  have h4 : ((n : ℕ) : ℤ) ≠ -4 := by omega
  have h3 : ((n : ℕ) : ℤ) ≠ -3 := by omega
  have h2 : ((n : ℕ) : ℤ) ≠ -2 := by omega
  simp [condStep, code, h4, h3, h2]

/-- The variables after hooks that do not end the loop. -/
def passed (c : CondState) (rs : List HookCond) : CondState :=
  rs.foldl (fun c r => (condStep c r.code).1) c

theorem condLoop_append {rs : List HookCond} (h : ∀ r ∈ rs, r.stops = false) (c : CondState)
    (rets : List ℤ) : condLoop c (rs.map code ++ rets) = condLoop (passed c rs) rets := by
  induction rs generalizing c with
  | nil => rfl
  | cons r rs ih =>
    have hr : (condStep c r.code).2 = false := (condStep_snd c r).trans (h r (by simp))
    rw [List.map_cons, List.cons_append, condLoop, if_neg (by simp [hr])]
    exact ih (fun b hb => h b (List.mem_cons_of_mem r hb)) _

theorem returned_passed {rs : List HookCond} (h : ∀ r ∈ rs, r.stops = false) (c : CondState) :
    (passed c rs).returned = if rs.any refuses then fail else c.returned := by
  induction rs generalizing c with
  | nil => rfl
  | cons r rs ih =>
    have hrs : ∀ b ∈ rs, b.stops = false := fun b hb => h b (List.mem_cons_of_mem r hb)
    rw [passed, List.foldl_cons]
    refine (ih hrs _).trans ?_
    cases r with
    | error n => simp [condStep_error, refuses]
    | ok => rfl
    | neutral => rfl
    | _ => simpa [stops] using h _ List.mem_cons_self

theorem econd_passed {rs : List HookCond} (h : ∀ r ∈ rs, r.stops = false) (c : CondState) :
    (passed c rs).econd = c.econd ∨ ∃ n, error n ∈ rs ∧ (passed c rs).econd = (error n).code := by
  induction rs generalizing c with
  | nil => exact .inl rfl
  | cons r rs ih =>
    have hrs : ∀ b ∈ rs, b.stops = false := fun b hb => h b (List.mem_cons_of_mem r hb)
    have hr : (condStep c r.code).1.econd = c.econd ∨
        ∃ n, r = error n ∧ (condStep c r.code).1.econd = (error n).code := by
      cases r with
      | error n => exact .inr ⟨n, rfl, by rw [condStep_error]⟩
      | ok => exact .inl rfl
      | neutral => exact .inl rfl
      | _ => simpa [stops] using h _ List.mem_cons_self
    rw [passed, List.foldl_cons]
    rcases ih hrs (condStep c r.code).1 with heq | ⟨n, hn, heq⟩
    · rcases hr with hr | ⟨n, rfl, hr⟩
      · exact .inl (heq.trans hr)
      · exact .inr ⟨n, List.mem_cons_self, heq.trans hr⟩
    · exact .inr ⟨n, List.mem_cons_of_mem r hn, heq⟩

/-! ### What is returned -/

variable {rs before after : List HookCond} {noreturn : Bool}

/-- An error's number is no success value. -/
theorem code_error_pos (n : ℕ+) : 0 < (error n).code := by
  simp [code]

/-- A refusal is not negative. -/
theorem Refusal.nonneg {v : ℤ} (h : Refusal rs v) : 0 ≤ v := by
  rcases h with rfl | ⟨n, -, rfl⟩
  · exact le_rfl
  · exact (code_error_pos n).le

/-- Once `returned` says that the action is denied, the result is a refusal. -/
theorem refusal_condResult (h : ∀ r ∈ before, r.stops = false) (hsub : ∀ r ∈ before, r ∈ rs) :
    Refusal rs (condResult { passed (condStart noreturn) before with returned := fail }) := by
  rcases econd_passed h (condStart noreturn) with heq | ⟨n, hn, heq⟩
  · exact .inl (if_neg fun hc => hc.2 heq)
  · refine .inr ⟨n, hsub _ hn, ?_⟩
    refine (if_pos ⟨rfl, ?_⟩).trans heq
    exact heq.trans_ne (code_error_pos n).ne'

/-- No hook ends the loop. -/
theorem hookCondEvent_of_forall (h : ∀ r ∈ rs, r.stops = false) :
    if rs.any refuses then Refusal rs (hookCondEvent noreturn (rs.map code))
    else hookCondEvent noreturn (rs.map code) = (condStart noreturn).returned := by
  have hloop : condLoop (condStart noreturn) (rs.map code) = passed (condStart noreturn) rs := by
    simpa [condLoop] using condLoop_append h (condStart noreturn) []
  have hret := returned_passed h (condStart noreturn)
  rw [hookCondEvent, hloop]
  split
  case isTrue hany =>
    have href := @refusal_condResult rs rs noreturn h fun r hr => hr
    rw [if_pos hany] at hret
    rwa [← hret] at href
  case isFalse hany =>
    rw [if_neg hany] at hret
    -- without an error `econd` is still `NULL`
    rcases econd_passed h (condStart noreturn) with heq | ⟨n, hn, -⟩
    · exact (if_neg fun hc => hc.2 heq).trans hret
    · exact (hany (List.any_eq_true.mpr ⟨_, hn, rfl⟩)).elim

/-- The loop ends with an `alwaysOk`. -/
theorem hookCondEvent_alwaysOk (h : ∀ r ∈ before, r.stops = false) :
    hookCondEvent noreturn ((before ++ alwaysOk :: after).map code) = spass := by
  rw [hookCondEvent, List.map_append, condLoop_append h, List.map_cons, condLoop]
  rfl

/-- The loop ends with a refusal. -/
theorem hookCondEvent_refusal {r : HookCond} (h : ∀ b ∈ before, b.stops = false)
    (hr : r.code = neverOk.code) :
    Refusal (before ++ r :: after)
      (hookCondEvent noreturn ((before ++ r :: after).map code)) := by
  rw [hookCondEvent, List.map_append, condLoop_append h, List.map_cons, condLoop, hr]
  exact refusal_condResult h fun b hb => List.mem_append_left _ hb

/-! ### The documentation and the code -/

/-- No plain refusal stands before an `alwaysOk` that should decide. -/
def Honoured (rs : List HookCond) : Prop :=
  ∀ before after, rs = before ++ alwaysOk :: after → (∀ r ∈ before, r.decides = false) →
    notOk ∉ before

theorem find?_eq_of_forall (h : ∀ r ∈ before, r.stops = false) :
    (before ++ after).find? decides = after.find? decides := by
  rw [List.find?_append, List.find?_eq_none.mpr fun r hr hd => ?_, Option.none_or]
  exact absurd (stops_of_decides hd) (by simp [h r hr])

/-- The loop ends with what should decide, or with a refusal before that. -/
theorem honoured_iff :
    Honoured rs ↔ (rs.find? decides = some alwaysOk → rs.find? stops ≠ some notOk) := by
  constructor
  · intro h hdec
    obtain ⟨-, before, after, rfl, hbefore⟩ := List.find?_eq_some_iff_append.mp hdec
    have hd : ∀ r ∈ before, r.decides = false := by simpa using hbefore
    have hnot := h before after rfl hd
    have hnone : before.find? stops = none := by
      refine List.find?_eq_none.mpr fun r hr => ?_
      have hdr := hd r hr
      cases r with
      | notOk => exact absurd hr hnot
      | _ => simp_all [decides, stops]
    simp [List.find?_append, hnone, stops]
  · rintro h before after rfl hd hmem
    have hfind : (before ++ alwaysOk :: after).find? decides = some alwaysOk :=
      List.find?_eq_some_iff_append.mpr ⟨rfl, before, after, rfl, by simpa using hd⟩
    obtain ⟨r, hr⟩ : ∃ r, before.find? stops = some r :=
      Option.isSome_iff_exists.mp (List.find?_isSome.mpr ⟨notOk, hmem, rfl⟩)
    -- it does not decide, so it is the plain refusal
    have hdr := hd r (List.mem_of_find?_eq_some hr)
    have hsr : r.stops = true := List.find?_some hr
    obtain rfl : r = notOk := by cases r <;> simp_all [decides, stops]
    exact h hfind (by simp [List.find?_append, hr])

/-- The result of a conditional event is the documented one just when no `HOOK_COND_NOTOK` stands
before an `HOOK_COND_ALWAYSOK` that should decide and, for an event that is said to return nothing
as well, some hook decides or refuses. -/
theorem documented_iff (noreturn : Bool) (rs : List HookCond) :
    Documented rs (hookCondEvent noreturn (rs.map code)) ↔
      Honoured rs ∧ (noreturn = true → ∃ r ∈ rs, r.decides = true ∨ r.refuses = true) := by
  cases hstop : rs.find? stops with
  | none =>
    have h : ∀ r ∈ rs, r.stops = false := by simpa using hstop
    have hfind : rs.find? decides = none :=
      List.find?_eq_none.mpr fun r hr hd => by simpa [h r hr] using stops_of_decides hd
    have hhon : Honoured rs := by
      rintro before after rfl -
      simpa [stops] using h alwaysOk (by simp)
    have hres := @hookCondEvent_of_forall rs noreturn h
    simp only [Documented, hfind]
    by_cases hany : rs.any refuses = true
    · rw [if_pos hany] at hres ⊢
      obtain ⟨r, hr, href⟩ := List.any_eq_true.mp hany
      exact iff_of_true hres ⟨hhon, fun _ => ⟨r, hr, .inr href⟩⟩
    · rw [if_neg hany] at hres ⊢
      rw [hres]
      cases noreturn with
      | false => exact iff_of_true rfl ⟨hhon, by simp⟩
      | true =>
        refine iff_of_false (by decide) fun ⟨_, hex⟩ => ?_
        obtain ⟨r, hr, hdec | href⟩ := hex rfl
        · simpa [h r hr] using stops_of_decides hdec
        · exact hany (List.any_eq_true.mpr ⟨r, hr, href⟩)
  | some r =>
    obtain ⟨hr, before, after, rfl, hbefore⟩ := List.find?_eq_some_iff_append.mp hstop
    have h : ∀ b ∈ before, b.stops = false := by simpa using hbefore
    have hex : ∃ b ∈ before ++ r :: after, b.decides = true ∨ b.refuses = true := by
      refine ⟨r, by simp, ?_⟩
      cases r <;> simp_all [stops, decides, refuses]
    simp only [Documented, find?_eq_of_forall h]
    rw [honoured_iff, hstop, find?_eq_of_forall h]
    cases r with
    | alwaysOk =>
      rw [hookCondEvent_alwaysOk h, List.find?_cons_of_pos rfl]
      exact iff_of_true rfl ⟨by simp, fun _ => hex⟩
    | neverOk =>
      rw [List.find?_cons_of_pos rfl]
      exact iff_of_true (hookCondEvent_refusal h rfl) ⟨by simp, fun _ => hex⟩
    | notOk =>
      have href := @hookCondEvent_refusal before after noreturn notOk h rfl
      rw [List.find?_cons_of_neg (by simp [decides])]
      have hany : (before ++ notOk :: after).any refuses = true :=
        List.any_eq_true.mpr ⟨notOk, by simp, rfl⟩
      rcases hd : after.find? decides with _ | d
      · exact iff_of_true (by simpa only [hany, if_true] using href) ⟨by simp, fun _ => hex⟩
      · cases d with
        | alwaysOk =>
          refine iff_of_false (fun hv => ?_) fun ⟨hne, _⟩ => hne rfl rfl
          have hneg := href.nonneg
          rw [hv] at hneg
          exact absurd hneg (by decide)
        | _ => exact iff_of_true href ⟨by simp, fun _ => hex⟩
    | _ => simp [stops] at hr

/-- An ordinary refusal does prevent a later hook's override. -/
theorem notOk_not_documented :
    ¬ Documented [notOk, alwaysOk] (hookCondEvent false ([notOk, alwaysOk].map code)) :=
  show hookCondEvent false ([notOk, alwaysOk].map code) ≠ spass by decide

end HookCond

end Ithildin
