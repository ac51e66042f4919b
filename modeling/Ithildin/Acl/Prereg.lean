import Ithildin.Acl.Decision

/-!
# The decision of stage 2

* `DeniedFirst`, `PlacedIn`: the decision as documented, over the whole list;
* `outcome_aclStage2Loop`: the decision of the hook, as the first entry that settles it;
* `aclStage2_iff`: exactly when the two agree.

Room is tested here without the maximum of 0 in view, which stands for no limit.
-/

namespace Ithildin

section
variable (cls : ℕ → Class) (ep : Bool) (cp : AclConnection)

/-- The masks of the entry take the connection: user and address. -/
def Acl.matchesConnection (ap : Acl) : Bool := ap.matchesUser cp.user && ap.matchesAddress cp

/-- The entry lets the connection in: it is an ALLOW that matches and whose class has room. -/
def Acl.LetsIn (ap : Acl) : Prop :=
  ap.access = .allow ∧ ap.matchesConnection cp = true ∧ (cls ap.cls).hasRoom = true

/-- The entry is a DENY that matches. -/
def Acl.KeepsOut (ap : Acl) : Prop := ap.access = .deny ∧ ap.matchesConnection cp = true

/-- A matching DENY comes before every matching ALLOW whose class has room. -/
def DeniedFirst (l : List Acl) : Prop :=
  ∃ before ap after, l = before ++ ap :: after ∧ ap.KeepsOut cp ∧
    ∀ b ∈ before, ¬ b.LetsIn cls cp

/-- A matching ALLOW whose class `c` has room decides: nothing before it does. -/
def PlacedIn (l : List Acl) (c : ℕ) : Prop :=
  ∃ before ap after, l = before ++ ap :: after ∧ ap.LetsIn cls cp ∧ ap.cls = c ∧
    ∀ b ∈ before, ¬ b.KeepsOut cp ∧ ¬ b.LetsIn cls cp

/-- The decision is as documented; the class changes only for the event. -/
def Stage2Decided (l : List Acl) (v : Verdict) : Prop :=
  (v.reason ≠ none ↔ DeniedFirst cls cp l) ∧
    ∀ c, v.joined = some c ↔ ep = true ∧ PlacedIn cls cp l c

/-- The entry matches, and settles the matter: it is no ALLOW whose class is full. -/
def Acl.decides (ap : Acl) : Bool := ap.matchesConnection cp && ap.settles cls

/-- The entries that match and settle the matter. -/
def deciders (l : List Acl) : List Acl := l.filter fun ap => ap.decides cls cp

/-- `ap->access == ACL_DENY`, or `ap->cls->max > ap->cls->clients`. -/
def Acl.settlesAtStage2 (ap : Acl) : Bool :=
  ap.access == .deny || decide ((cls ap.cls).clients < (cls ap.cls).max)

/-- What comes of it when the first of some entries settles the matter: whether the connection is
refused, and the class it is put in. -/
def outcome : Option Acl → Bool × Option ℕ
  | none => (false, none)
  | some ap => if ap.access = .deny then (true, none) else (false, joins ep ap.cls)

end

section
variable {cls : ℕ → Class} {ep : Bool} {cp : AclConnection}

/-- The hook does what the first visible entry says that is not passed over. -/
theorem outcome_aclStage2Loop (seen : Acl → Bool) (l : List Acl) :
    let v := aclStage2Loop seen cls ep cp l
    (v.reason.isSome, v.joined) =
      outcome ep
        (l.find? fun ap => ap.matchesConnection cp && (seen ap && ap.settlesAtStage2 cls)) := by
  dsimp only
  induction l with
  | nil => rfl
  | cons ap l ih =>
    unfold aclStage2Loop
    by_cases hseen : seen ap = true
    · by_cases hmatch : ap.matchesUser cp.user = true ∧ ap.matchesAddress cp = true
      · have hmask : ap.matchesConnection cp = true := by simpa [Acl.matchesConnection] using hmatch
        cases haccess : ap.access with
        | deny =>
          simp [hseen, hmatch, hmask, haccess, Acl.settlesAtStage2, outcome, Verdict.refuse]
        | allow =>
          by_cases hroom : (cls ap.cls).clients < (cls ap.cls).max
          · simp [hseen, hmatch, hmask, haccess, hroom, Acl.settlesAtStage2, outcome,
              Verdict.accept]
          · simp [hseen, hmatch, hmask, haccess, hroom, Acl.settlesAtStage2, ih]
      · have hmask : ap.matchesConnection cp = false := by
          rw [← Bool.not_eq_true, Acl.matchesConnection, Bool.and_eq_true]
          exact hmatch
        simp [hseen, hmatch, hmask, ih]
    · simp [hseen, ih]

theorem keepsOut_iff (cls : ℕ → Class) {ap : Acl} :
    ap.KeepsOut cp ↔ ap.decides cls cp = true ∧ ap.access = .deny := by
  unfold Acl.KeepsOut Acl.decides Acl.settles
  cases ap.access <;> simp

theorem letsIn_iff {ap : Acl} :
    ap.LetsIn cls cp ↔ ap.decides cls cp = true ∧ ap.access = .allow := by
  unfold Acl.LetsIn Acl.decides Acl.settles
  cases ap.access <;> simp

theorem not_decides_iff {ap : Acl} :
    ¬ ap.decides cls cp = true ↔ ¬ ap.KeepsOut cp ∧ ¬ ap.LetsIn cls cp := by
  rw [keepsOut_iff cls, letsIn_iff]
  cases ap.access <;> simp

theorem find?_deciders (p : Acl → Bool) (hp : ∀ ap, p ap = true → ap.settles cls = true)
    (l : List Acl) :
    (deciders cls cp l).find? p = l.find? fun ap => ap.matchesConnection cp && p ap := by
  rw [deciders, List.find?_filter]
  congr 1
  funext ap
  have hap := hp ap
  unfold Acl.decides
  cases h : p ap <;> simp_all

theorem placedIn_iff (l : List Acl) (c : ℕ) :
    PlacedIn cls cp l c ↔
      ∃ ap, (deciders cls cp l).head? = some ap ∧ ap.access = .allow ∧ ap.cls = c := by
  rw [deciders, List.head?_filter]
  simp only [List.find?_eq_some_iff_append, Bool.not_eq_true', ← Bool.not_eq_true, not_decides_iff]
  constructor
  · rintro ⟨before, ap, after, hl, hap, hcls, hbefore⟩
    obtain ⟨hdecides, hallow⟩ := letsIn_iff.mp hap
    exact ⟨ap, ⟨hdecides, before, after, hl, hbefore⟩, hallow, hcls⟩
  · rintro ⟨ap, ⟨hdecides, before, after, hl, hbefore⟩, hallow, hcls⟩
    exact ⟨before, ap, after, hl, letsIn_iff.mpr ⟨hdecides, hallow⟩, hcls, hbefore⟩

theorem deniedFirst_cons {a : Acl} {l : List Acl} :
    DeniedFirst cls cp (a :: l) ↔ a.KeepsOut cp ∨ ¬ a.LetsIn cls cp ∧ DeniedFirst cls cp l := by
  constructor
  · rintro ⟨before, ap, after, hl, hap, hbefore⟩
    cases before with
    | nil =>
      obtain ⟨rfl, -⟩ := List.cons.inj hl
      exact .inl hap
    | cons b before =>
      obtain ⟨rfl, rfl⟩ := List.cons.inj hl
      rw [List.forall_mem_cons] at hbefore
      exact .inr ⟨hbefore.1, before, ap, after, rfl, hap, hbefore.2⟩
  · rintro (hap | ⟨ha, before, ap, after, rfl, hap, hbefore⟩)
    · exact ⟨[], a, l, rfl, hap, by simp⟩
    · exact ⟨a :: before, ap, after, rfl, hap, List.forall_mem_cons.mpr ⟨ha, hbefore⟩⟩

/-- A full class, or an entry that does not match, may come before the DENY. -/
theorem deniedFirst_iff (l : List Acl) :
    DeniedFirst cls cp l ↔ ∃ ap, (deciders cls cp l).head? = some ap ∧ ap.access = .deny := by
  rw [deciders, List.head?_filter]
  induction l with
  | nil => simp [DeniedFirst]
  | cons a l ih =>
    rw [deniedFirst_cons, ih, keepsOut_iff cls, letsIn_iff]
    cases hdecides : a.decides cls cp with
    | false => simp [hdecides]
    | true => cases haccess : a.access <;> simp [hdecides, haccess]

theorem eq_joined_iff {o o' : Option ℕ} : o = o' ↔ ∀ c, o = some c ↔ o' = some c :=
  ⟨fun h _ => h ▸ Iff.rfl, Option.ext⟩

theorem stage2Decided_iff (l : List Acl) (v : Verdict) :
    Stage2Decided cls ep cp l v ↔
      (v.reason.isSome, v.joined) = outcome ep (deciders cls cp l).head? := by
  rw [Stage2Decided, deniedFirst_iff]
  simp only [placedIn_iff]
  cases (deciders cls cp l).head? with
  | none =>
    rw [outcome, Prod.mk.injEq, eq_joined_iff]
    simp
  | some ap =>
    cases haccess : ap.access with
    | deny =>
      rw [outcome, if_pos haccess, Prod.mk.injEq, eq_joined_iff]
      simp [haccess, Option.isSome_iff_ne_none]
    | allow =>
      rw [outcome, if_neg (by simp [haccess]), Prod.mk.injEq, eq_joined_iff]
      cases ep <;> simp [haccess, joins]

end

/-- The hook decides as documented exactly when the first entry that settles the matter, and the
first of these that neither the keys nor the test for room pass over, have the same outcome. -/
theorem aclStage2_iff (okay : HostMap) (cls : ℕ → Class) (ep : Bool) (cp : AclConnection)
    (l : List Acl) :
    Stage2Decided cls ep cp l (aclStage2Hook okay cls ep cp l) ↔
      outcome ep ((deciders cls cp l).find? fun ap =>
          visible [getAclHash okay cp.host, getAclHash okay cp.ip] ap && ap.settlesAtStage2 cls) =
        outcome ep (deciders cls cp l).head? := by
  have hsettles : ∀ ap : Acl, (visible [getAclHash okay cp.host, getAclHash okay cp.ip] ap &&
      ap.settlesAtStage2 cls) = true → ap.settles cls = true := by
    intro ap hap
    simp only [Acl.settlesAtStage2, Acl.settles, Class.hasRoom, Bool.and_eq_true, Bool.or_eq_true,
      decide_eq_true_eq] at hap ⊢
    rcases hap.2 with hdeny | hroom
    · exact .inl hdeny
    · exact .inr (.inr hroom)
  rw [stage2Decided_iff, find?_deciders _ hsettles]
  unfold aclStage2Hook
  rw [← outcome_aclStage2Loop]

/-- A class without a limit has no room here: the DENY behind its ALLOW refuses the connection. -/
theorem aclStage2_fails :
    ¬ ∀ okay cls ep cp l, Stage2Decided cls ep cp l (aclStage2Hook okay cls ep cp l) := by
  intro hall
  have hdecided := hall hostMap (fun _ => ⟨0, 0⟩) true (fromAddress (bytes "10.1.2.3"))
    [{ denyHost hostMap (bytes "*") with access := .allow }, denyHost hostMap (bytes "*")]
  rw [stage2Decided_iff] at hdecided
  exact absurd hdecided (by decide +kernel)

end Ithildin
