import Ithildin.Acl.Prefilter

/-!
# The decision of stage 3

* `Admitted`: the decision as documented, over the whole list;
* `aclStage3Hook_admits_iff`: the decision of the hook, as the first entry that settles it;
* `aclStage3_iff`: exactly when the two agree.
-/

namespace Ithildin

section
variable (cls : ℕ → Class) (cp : AclConnection)

/-- The masks of the entry take the client: information, user and address. -/
def Acl.fits (ap : Acl) : Bool :=
  ap.matchesInfo cp && ap.matchesUser cp.cliUser && ap.matchesAddress cp

/-- The password of the entry, if it has one, is the one that was given. -/
def Acl.passGiven (ap : Acl) : Bool := ap.pass.isNone || ap.pass == cp.pass

/-- The entry matches as documented: masks, and the password required to activate it. -/
def Acl.matchesClient (ap : Acl) : Bool := ap.fits cp && ap.passGiven cp

/-- An entry that settles the matter when it matches: a DENY, or an ALLOW whose class has room. -/
def Acl.settles (ap : Acl) : Bool := ap.access == .deny || (cls ap.cls).hasRoom

/-- Some matching ALLOW whose class has room comes before every matching DENY. -/
def AllowedFirst (l : List Acl) : Prop :=
  ∃ before ap after, l = before ++ ap :: after ∧ ap.access = .allow ∧
    ap.matchesClient cp = true ∧ (cls ap.cls).hasRoom = true ∧
    ∀ b ∈ before, ¬ (b.access = .deny ∧ b.matchesClient cp = true)

/-- The client is admitted, as documented. -/
def Admitted (l : List Acl) : Prop := l = [] ∨ AllowedFirst cls cp l

/-- The entries that could settle the matter: their masks take the client, their password is not
another one than that given, and they are no ALLOW whose class is full. -/
def candidates (l : List Acl) : List Acl :=
  l.filter fun ap => ap.fits cp && ap.passes cp && ap.settles cls

/-- The outcome when the first of some entries settles the matter: nobody is admitted by none. -/
def Admits (first : Option Acl) : Prop := first.any (·.access == .allow) = true

end

section
variable {cls : ℕ → Class} {cp : AclConnection}

theorem admits_find?_cons {p : Acl → Bool} {ap : Acl} {l : List Acl} :
    Admits ((ap :: l).find? p) ↔
      if p ap = true then ap.access = .allow else Admits (l.find? p) := by
  by_cases hp : p ap = true
  · simp [Admits, List.find?_cons_of_pos hp, hp]
  · simp [List.find?_cons_of_neg hp, hp]

/-- The hook admits what the first visible candidate admits. -/
theorem aclStage3Loop_admits_iff (seen : Acl → Bool) (ep : Bool) (ret : Option Bytes)
    (l : List Acl) :
    (aclStage3Loop seen cls ep cp ret l).reason = none ↔
      Admits (l.find? fun ap => (ap.fits cp && ap.passes cp && ap.settles cls) && seen ap) := by
  induction l generalizing ret with
  | nil => simp [aclStage3Loop, Verdict.refuse, Admits]
  | cons ap l ih =>
    rw [admits_find?_cons]
    unfold aclStage3Loop
    by_cases hseen : seen ap = true
    · by_cases hpass : ap.passes cp = true
      · by_cases hinfo : ap.matchesInfo cp = true
        · by_cases hmask : ap.matchesUser cp.cliUser = true ∧ ap.matchesAddress cp = true
          · cases haccess : ap.access with
            | deny =>
              simp [hseen, hpass, hinfo, hmask, haccess, Verdict.refuse, Acl.fits, Acl.settles]
            | allow =>
              by_cases hroom : (cls ap.cls).hasRoom = true
              · simp [hseen, hpass, hinfo, hmask, haccess, hroom, Verdict.accept, Acl.fits,
                  Acl.settles]
              · simp [hseen, hpass, hinfo, hmask, haccess, hroom, Acl.fits, Acl.settles, ih]
          · have hfits : ap.fits cp = false := by
              rw [Acl.fits, hinfo, Bool.true_and, ← Bool.not_eq_true, Bool.and_eq_true]
              exact hmask
            simp [hseen, hpass, hinfo, hmask, hfits, ih]
        · simp [hseen, hpass, hinfo, Acl.fits, ih]
      · simp [hseen, hpass, ih]
    · simp [hseen, ih]

theorem allowedFirst_cons {ap : Acl} {l : List Acl} :
    AllowedFirst cls cp (ap :: l) ↔
      ap.access = .allow ∧ ap.matchesClient cp = true ∧ (cls ap.cls).hasRoom = true ∨
        ¬ (ap.access = .deny ∧ ap.matchesClient cp = true) ∧ AllowedFirst cls cp l := by
  constructor
  · rintro ⟨before, a, after, heq, hallow, hmatch, hroom, hbefore⟩
    cases before with
    | nil =>
      obtain ⟨rfl, -⟩ := List.cons.inj heq
      exact .inl ⟨hallow, hmatch, hroom⟩
    | cons b before =>
      obtain ⟨rfl, rfl⟩ := List.cons.inj heq
      rw [List.forall_mem_cons] at hbefore
      exact .inr ⟨hbefore.1, before, a, after, rfl, hallow, hmatch, hroom, hbefore.2⟩
  · rintro (⟨hallow, hmatch, hroom⟩ | ⟨hap, before, a, after, rfl, hallow, hmatch, hroom, hbefore⟩)
    · exact ⟨[], ap, l, rfl, hallow, hmatch, hroom, by simp⟩
    · refine ⟨ap :: before, a, after, rfl, hallow, hmatch, hroom, ?_⟩
      rw [List.forall_mem_cons]
      exact ⟨hap, hbefore⟩

/-- The documented decision is that of the first candidate with the right password. -/
theorem allowedFirst_iff (l : List Acl) :
    AllowedFirst cls cp l ↔ Admits (l.find? fun ap => ap.matchesClient cp && ap.settles cls) := by
  induction l with
  | nil => simp [AllowedFirst, Admits]
  | cons ap l ih =>
    rw [allowedFirst_cons, admits_find?_cons, ih]
    by_cases hmatch : ap.matchesClient cp = true
    · cases haccess : ap.access with
      | deny => simp [hmatch, haccess, Acl.settles]
      | allow =>
        by_cases hroom : (cls ap.cls).hasRoom = true
        · simp [hmatch, haccess, hroom, Acl.settles]
        · simp [hmatch, haccess, hroom, Acl.settles]
    · simp [hmatch]

theorem passes_of_passGiven {ap : Acl} (h : ap.passGiven cp = true) : ap.passes cp = true := by
  unfold Acl.passGiven at h
  unfold Acl.passes
  cases hap : ap.pass with
  | none => rfl
  | some pass =>
    cases hcp : cp.pass with
    | none => rfl
    | some given => simpa [hap, hcp] using h

theorem find?_candidates (p : Acl → Bool) (l : List Acl) :
    (candidates cls cp l).find? p =
      l.find? fun ap => (ap.fits cp && ap.passes cp && ap.settles cls) && p ap := by
  rw [candidates, List.find?_filter]
  simp

/-- The candidates with the right password are the entries that match and settle. -/
theorem find?_candidates_passGiven (l : List Acl) :
    (candidates cls cp l).find? (·.passGiven cp) =
      l.find? fun ap => ap.matchesClient cp && ap.settles cls := by
  rw [find?_candidates]
  congr 1
  funext ap
  by_cases hpass : ap.passGiven cp = true
  · simp [Acl.matchesClient, hpass, passes_of_passGiven hpass]
  · simp [Acl.matchesClient, hpass]

end

/-- The hook decides as documented exactly when the first candidate whose key the client has and the
first candidate whose password the client gave are of one kind. -/
theorem aclStage3_iff (okay : HostMap) (cls : ℕ → Class) (ep : Bool) (cp : AclConnection)
    (l : List Acl) :
    ((aclStage3Hook okay cls ep cp l).reason = none ↔ Admitted cls cp l) ↔
      (Admits ((candidates cls cp l).find?
          (visible [getAclHash okay cp.host, getAclHash okay cp.ip])) ↔
        Admits ((candidates cls cp l).find? (·.passGiven cp))) := by
  rw [find?_candidates_passGiven, ← allowedFirst_iff, find?_candidates, Admitted, aclStage3Hook]
  by_cases hl : l = []
  · subst hl
    simp [Verdict.accept, allowedFirst_iff, Admits]
  · rw [if_neg hl, or_iff_right hl, aclStage3Loop_admits_iff]

/-- A client without a password gets in by an entry that requires one. -/
theorem aclStage3_fails :
    ¬ ∀ okay cls ep cp l, (aclStage3Hook okay cls ep cp l).reason = none ↔ Admitted cls cp l := by
  intro hall
  have hin := (hall hostMap (fun _ => ⟨0, 0⟩) true (fromAddress (bytes "10.1.2.3"))
    [{ denyHost hostMap (bytes "*") with access := .allow, pass := some (bytes "secret") }]).1
    (by decide +kernel)
  rw [Admitted, allowedFirst_iff] at hin
  exact absurd hin (by unfold Admits; decide +kernel)

end Ithildin
