import Ithildin.Acl.Store

/-!
# What a new entry displaces

`create_acl` deletes the entry that `find_acl` finds for its arguments, if that has no info mask,
and promises to leave alone what is not similar to the new entry or has special data.

* `AclStore.Spares`: what is promised;
* `AclStore.spares_iff`: it is kept unless the entry found has a password, or is of another stage,
  access or rule;
* `AclStore.kept_of_run_iff`: runs that keep the promise, and the order of the lists in all runs.
-/

namespace Ithildin

/-- Two entries of one stage, access, mask, type and rule. -/
def AclEntry.Alike (a b : AclEntry) : Prop :=
  a.stage = b.stage ∧ a.access = b.access ∧ sameCase a.user b.user ∧ sameCase a.host b.host ∧
    sameCase a.type b.type ∧ a.rule = b.rule

namespace AclStore

section
variable (okay : HostMap)

/-- `create_acl` removes no entry with a password or an info mask, and none that is not alike to the
new one. -/
def Spares (s : AclStore) (spec : AclSpec) : Prop :=
  ∀ id ap, s.entry id = some ap →
    ap.pass.isSome ∨ ap.info.isSome ∨ ¬ ap.Alike (s.newAcl okay spec) →
    (s.createAcl okay spec).entry id = some ap

end

section
variable {okay : HostMap} {s : AclStore} {id : ℕ} {ap : AclEntry} {spec : AclSpec}

/-- What `create_acl` deletes is not distinguished from the new entry: it has no password, and is of
its stage; and if any access or any rule was asked for, it has the one that is then stored. -/
def Harmless (s : AclStore) (spec : AclSpec) : Prop :=
  ∀ id ∈ s.displaced spec, ∀ ap ∈ s.entry id,
    ap.pass = none ∧ ap.stage = spec.stage ∧
      (spec.access = ACL_ACCESS_ANY → ap.access = ACL_ACCESS_ANY) ∧
      (spec.rule = ACL_ANY_RULE → ap.rule = 65535)

instance (s : AclStore) (spec : AclSpec) : Decidable (s.Harmless spec) := by
  unfold Harmless
  infer_instance

theorem toUShort_toNat (r : UInt16) : toUShort r.toNat = r := by
  have hlt := r.toNat_lt
  have hmod : ((r.toNat : ℤ) % 65536).toNat = r.toNat := by omega
  rw [toUShort, hmod]
  exact UInt16.ofNat_toNat

theorem similar_of_displaced (hdisp : s.displaced spec = some id) (hap : s.entry id = some ap) :
    ap.info = none ∧
      ap.similar spec.access (splitMask spec.host).1 (splitMask spec.host).2 spec.type
        (s.ruleGiven spec.rule) = true := by
  obtain ⟨hfind, hinfo⟩ := Option.filter_eq_some_iff.mp hdisp
  have hsimilar := List.find?_some hfind
  rw [hap] at hinfo hsimilar
  exact ⟨by simpa using hinfo, hsimilar⟩

/-- When an entry that `find_acl` finds is alike to the new one. -/
theorem alike_iff_of_similar
    (h : ap.similar spec.access (splitMask spec.host).1 (splitMask spec.host).2 spec.type
      (s.ruleGiven spec.rule) = true) :
    ap.Alike (s.newAcl okay spec) ↔ ap.stage = spec.stage ∧
      (spec.access = ACL_ACCESS_ANY → ap.access = ACL_ACCESS_ANY) ∧
      (spec.rule = ACL_ANY_RULE → ap.rule = 65535) := by
  simp only [AclEntry.similar, Bool.and_eq_true, Bool.or_eq_true, decide_eq_true_eq] at h
  obtain ⟨⟨hacc, hrule⟩, ⟨huser, hhost⟩, htype⟩ := h
  have haccess : ap.access = spec.access ↔
      (spec.access = ACL_ACCESS_ANY → ap.access = ACL_ACCESS_ANY) := by
    rcases hacc with hany | heq
    · simp [hany]
    · simp [heq]
  have hstored : ap.rule = (s.newAcl okay spec).rule ↔
      (spec.rule = ACL_ANY_RULE → ap.rule = 65535) := by
    show ap.rule = (if _ then _ else _) ↔ _
    rw [ruleGiven] at hrule
    by_cases hdefault : spec.rule = ACL_DEFAULT_RULE
    · have hne : (s.defaultRule.toNat : ℤ) ≠ ACL_ANY_RULE := by
        rw [ACL_ANY_RULE]
        omega
      simp only [if_pos hdefault, hne, false_or] at hrule
      have heq : ap.rule = s.defaultRule := UInt16.toNat_inj.mp (by exact_mod_cast hrule)
      simp [hdefault, heq, ACL_DEFAULT_RULE, ACL_ANY_RULE]
    · rw [if_neg hdefault] at hrule ⊢
      rcases hrule with hany | heq
      · rw [hany]
        exact ⟨fun heq _ => heq, fun himp => himp rfl⟩
      · rw [← heq, toUShort_toNat]
        refine ⟨fun _ hany => ?_, fun _ => rfl⟩
        rw [ACL_ANY_RULE] at hany
        omega
  rw [AclEntry.Alike, hstored]
  exact ⟨fun ⟨hs, ha, _, _, _, hr⟩ => ⟨hs, haccess.mp ha, hr⟩,
    fun ⟨hs, ha, hr⟩ => ⟨hs, haccess.mpr ha, huser, hhost, htype, hr⟩⟩

theorem entry_createAcl (h : s.Ok) (hap : s.entry id = some ap) :
    (s.createAcl okay spec).entry id = if s.displaced spec = some id then none else some ap := by
  have hne : id ≠ s.next := (h.numbered id (by rw [hap]; rfl)).ne
  rw [createAcl, entry_addAcl]
  cases s.displaced spec with
  | none => simp [hne, hap]
  | some j =>
    show (if id = (s.destroyAcl j).next then _ else _) = _
    rw [next_destroyAcl, if_neg hne]
    show (s.destroyAcl j).entry id = _
    rw [entry_destroyAcl, hap]
    simp [eq_comm]

/-- `create_acl` keeps its promise exactly when what it deletes is not distinguished. -/
theorem spares_iff (h : s.Ok) : s.Spares okay spec ↔ s.Harmless spec := by
  constructor
  · intro hspares id hid ap hap
    obtain ⟨hinfo, hsimilar⟩ := similar_of_displaced hid hap
    rw [← @alike_iff_of_similar okay s ap spec hsimilar]
    by_contra hbad
    have hdist : ap.pass.isSome ∨ ap.info.isSome ∨ ¬ ap.Alike (s.newAcl okay spec) := by
      rcases not_and_or.mp hbad with hpass | halike
      · exact .inl (Option.isSome_iff_ne_none.mpr hpass)
      · exact .inr (.inr halike)
    have hkept := hspares id ap hap hdist
    rw [entry_createAcl h hap, if_pos (Option.mem_def.mp hid)] at hkept
    exact absurd hkept (by simp)
  · intro hharmless id ap hap hdist
    rw [entry_createAcl h hap]
    split
    · rename_i hid
      obtain ⟨hinfo, hsimilar⟩ := similar_of_displaced hid hap
      obtain ⟨hpass, halike⟩ := hharmless id hid ap hap
      rw [← @alike_iff_of_similar okay s ap spec hsimilar] at halike
      simp [hpass, hinfo, halike] at hdist
    · rfl

end

/-- The lists are in order in every state, and every `create_acl` keeps its promise exactly when
what it deletes is never distinguished. -/
theorem kept_of_run_iff (okay : HostMap) (as : List AclAction) :
    (∀ before behind s, as = before ++ behind →
      Run.run (step okay) empty before = some s → s.Ok) ∧
    (Run.Along (step okay) (fun s a => ∀ call ∈ s.createCalls okay a, call.1.Spares okay call.2)
        empty as ↔
      Run.Along (step okay) (fun s a => ∀ call ∈ s.createCalls okay a, call.1.Harmless call.2)
        empty as) := by
  constructor
  · rintro before behind s - hrun
    exact Run.run_induction (I := fun _ s => s.Ok) ok_empty (fun _ _ _ _ hs hst => hs.step hst) hrun
  · refine Run.along_iff (fun _ _ _ hs _ hst => hs.step hst) (fun s a hs => ?_) ok_empty
    constructor
    · intro h call hcall
      exact (spares_iff (hs.createCalls call hcall)).mp (h call hcall)
    · intro h call hcall
      exact (spares_iff (hs.createCalls call hcall)).mpr (h call hcall)

/-- An `acl` list of the configuration that lets a host in with a password. -/
def passBlock (pass : Bytes) : AclBlock where
  string := none
  stage := none
  access := some (bytes "allow")
  cls := 0
  pass := some pass
  info := none
  reason := none
  redirect := none
  skipDns := false
  skipIdent := false
  hosts := [bytes "*"]

/-- Of two `acl` lists for one host with different passwords only the second is left. -/
theorem kept_fails :
    ¬ ∀ okay as, (∀ before behind s, as = before ++ behind →
        Run.run (step okay) empty before = some s → s.Ok) ∧
      Run.Along (step okay) (fun s a => ∀ call ∈ s.createCalls okay a, call.1.Spares okay call.2)
        empty as := by
  intro hall
  have hspares := (hall hostMap
    [.reload ⟨none, none, [passBlock (bytes "one"), passBlock (bytes "two")]⟩]).2.1
  have hbad : ¬ ∀ call ∈ empty.createCalls hostMap
      (.reload ⟨none, none, [passBlock (bytes "one"), passBlock (bytes "two")]⟩),
      call.1.Harmless call.2 := by decide +kernel
  exact hbad fun call hcall =>
    (spares_iff (ok_empty.createCalls call hcall)).mp (hspares call hcall)

end AclStore

end Ithildin
