import Ithildin.Acl.Stages

/-!
# What the hash keys hide

The hooks skip an entry whose key is neither the default one nor one of the connection's.

* `stageLoop_congr`: loops that see every entry whose mask matches decide alike;
* `visible_of_matchesMask`: an ordinary mask that matches is seen;
* `prefilter_iff`: exactly which lists are judged as if nothing were skipped.
-/

namespace Ithildin

/-- `ACL_STAGE_CONNECT`, `ACL_STAGE_PREREG` and `ACL_STAGE_REGISTER`. -/
inductive Stage
  | connect
  | prereg
  | register
  deriving DecidableEq

/-- What the hook of a stage matches against the mask of an entry. -/
def Stage.matchesMask : Stage → AclConnection → Acl → Bool
  | .connect, cp, ap => ap.matchesHost cp.host
  | _, cp, ap => ap.matchesAddress cp

/-- The keys of a connection at a stage. -/
def Stage.keys (okay : HostMap) : Stage → AclConnection → List UInt32
  | .connect, cp => [getAclHash okay cp.host]
  | _, cp => [getAclHash okay cp.host, getAclHash okay cp.ip]

/-- The decision of a stage over the entries that `seen` shows. -/
def Stage.decide (cls : ℕ → Class) (ep : Bool) (cp : AclConnection) (l : List Acl) :
    Stage → (Acl → Bool) → Verdict
  | .connect, seen => aclStage1Loop seen cp l
  | .prereg, seen => aclStage2Loop seen cls ep cp l
  | .register, seen => if l = [] then .accept none else aclStage3Loop seen cls ep cp none l

/-- The decision of a stage, by its hook. -/
def Stage.hook (okay : HostMap) (cls : ℕ → Class) (ep : Bool) (cp : AclConnection)
    (l : List Acl) : Stage → Verdict
  | .connect => aclStage1Hook okay cp l
  | .prereg => aclStage2Hook okay cls ep cp l
  | .register => aclStage3Hook okay cls ep cp l

theorem Stage.hook_eq (okay : HostMap) (cls : ℕ → Class) (ep : Bool) (cp : AclConnection)
    (l : List Acl) (stage : Stage) :
    stage.hook okay cls ep cp l = stage.decide cls ep cp l (visible (stage.keys okay cp)) := by
  cases stage <;> rfl

/-! ### Loops that see what matches -/

section
variable {seen : Acl → Bool} {cls : ℕ → Class} {ep : Bool} {cp : AclConnection}

theorem aclStage1Loop_congr {l : List Acl}
    (h : ∀ ap ∈ l, ap.matchesHost cp.host = true → seen ap = true) :
    aclStage1Loop seen cp l = aclStage1Loop (fun _ => true) cp l := by
  induction l with
  | nil => rfl
  | cons ap l ih =>
    have hl := ih fun b hb => h b (List.mem_cons_of_mem ap hb)
    have hap := h ap List.mem_cons_self
    rw [aclStage1Loop, aclStage1Loop, hl]
    by_cases hmatch : ap.matchesHost cp.host = true
    · simp [hap hmatch]
    · simp [hmatch]

theorem aclStage2Loop_congr {l : List Acl}
    (h : ∀ ap ∈ l, ap.matchesAddress cp = true → seen ap = true) :
    aclStage2Loop seen cls ep cp l = aclStage2Loop (fun _ => true) cls ep cp l := by
  induction l with
  | nil => rfl
  | cons ap l ih =>
    have hl := ih fun b hb => h b (List.mem_cons_of_mem ap hb)
    have hap := h ap List.mem_cons_self
    rw [aclStage2Loop, aclStage2Loop, hl]
    by_cases hmatch : ap.matchesAddress cp = true
    · simp [hap hmatch]
    · simp [hmatch]

theorem aclStage3Loop_congr {l : List Acl}
    (h : ∀ ap ∈ l, ap.matchesAddress cp = true → seen ap = true) (ret : Option Bytes) :
    aclStage3Loop seen cls ep cp ret l = aclStage3Loop (fun _ => true) cls ep cp ret l := by
  induction l generalizing ret with
  | nil => rfl
  | cons ap l ih =>
    have hl := ih fun b hb => h b (List.mem_cons_of_mem ap hb)
    have hap := h ap List.mem_cons_self
    rw [aclStage3Loop, aclStage3Loop, hl, hl]
    by_cases hmatch : ap.matchesAddress cp = true
    · simp [hap hmatch]
    · simp [hmatch]

theorem Stage.decide_congr {l : List Acl} (stage : Stage)
    (h : ∀ ap ∈ l, stage.matchesMask cp ap = true → seen ap = true) :
    stage.decide cls ep cp l seen = stage.decide cls ep cp l fun _ => true := by
  cases stage with
  | connect => exact aclStage1Loop_congr h
  | prereg => exact aclStage2Loop_congr h
  | register =>
    unfold Stage.decide
    dsimp only
    rw [aclStage3Loop_congr h]

end

/-! ### Ordinary masks -/

/-- A textual address: the system prints one with a hexadecimal digit or a colon in front. -/
def IpText (s : Bytes) : Prop := ∃ c r, s = c :: r ∧ (c = colon ∨ (digitOf 16 c).isSome)

/-- What a connection's host can be: a textual address, or a name that passes the map and does not
begin with a dot. -/
structure AclConnection.Presentable (okay : HostMap) (cp : AclConnection) : Prop where
  ip : IpText cp.ip
  host : IpText cp.host ∨ (cp.host.all okay = true ∧ cp.host.head? ≠ some dot)

/-- The text a stage compares addresses with. -/
def Stage.address : Stage → AclConnection → Bytes
  | .connect, cp => cp.host
  | _, cp => cp.ip

/-- An entry that takes the connection and whose key need not speak for what it takes: its mask is
an address with bits or one of IPv6, or the map is unfit, or the key is not that of the mask under
this map. -/
def Acl.Exposed (okay : HostMap) (stage : Stage) (cp : AclConnection) (ap : Acl) : Prop :=
  (slash ∈ ap.host ∨ colon ∈ ap.host) ∧ ipmatch ap.host (stage.address cp) = true ∨
    (¬ okay.Fit ∨ ap.hash ≠ getAclHash okay ap.host) ∧ stage.matchesMask cp ap = true

theorem IpText.ne_star {s : Bytes} (h : IpText s) : s ≠ [star] := by
  rintro rfl
  obtain ⟨c, r, hcons, hc⟩ := h
  obtain ⟨rfl, -⟩ := List.cons.inj hcons
  revert hc
  decide

theorem IpText.head_ne_dot {s : Bytes} (h : IpText s) : s.head? ≠ some dot := by
  obtain ⟨c, r, rfl, hc⟩ := h
  rintro hhead
  obtain rfl : c = dot := Option.some.inj hhead
  revert hc
  decide

theorem AclConnection.Presentable.host_ne_star {okay : HostMap} {cp : AclConnection}
    (h : cp.Presentable okay) (hfit : okay.Fit) : cp.host ≠ [star] := by
  rcases h.host with hip | ⟨hall, -⟩
  · exact hip.ne_star
  · intro hstar
    have hokay : okay star = true := by simpa [hstar] using hall
    exact (hfit.literal star hokay star List.mem_cons_self).1 rfl

theorem AclConnection.Presentable.head_ne_dot {okay : HostMap} {cp : AclConnection}
    (h : cp.Presentable okay) : cp.host.head? ≠ some dot := by
  rcases h.host with hip | ⟨-, hdot⟩
  · exact hip.head_ne_dot
  · exact hdot

theorem visible_of_key {okay : HostMap} {ap : Acl} {keys : List UInt32} {s : Bytes}
    (hkeys : getAclHash okay s ∈ keys)
    (h : ap.hash ≠ ACL_DEFAULT_HASH → ap.hash = getAclHash okay s) : visible keys ap = true := by
  simp only [visible, Bool.or_eq_true, beq_iff_eq, List.contains_eq_mem, decide_eq_true_eq]
  by_cases hdefault : ap.hash = ACL_DEFAULT_HASH
  · exact .inl hdefault
  · rw [h hdefault]
    exact .inr hkeys

/-- An entry that is not exposed is seen wherever its mask matches. -/
theorem visible_of_matchesMask {okay : HostMap} {cp : AclConnection} (hcp : cp.Presentable okay)
    {ap : Acl} {stage : Stage} (hap : ¬ ap.Exposed okay stage cp)
    (h : stage.matchesMask cp ap = true) : visible (stage.keys okay cp) ap = true := by
  simp only [Acl.Exposed, not_or, not_and] at hap
  obtain ⟨hbits, hfresh⟩ := hap
  have hok : okay.Fit ∧ ap.hash = getAclHash okay ap.host := by
    by_contra hbad
    rw [not_and_or] at hbad
    exact hfresh hbad h
  obtain ⟨hfit, hhash⟩ := hok
  -- a host the mask matches as a pattern, and an address it spells out
  have hpattern : ∀ s, getAclHash okay s ∈ stage.keys okay cp → s ≠ [star] → s.head? ≠ some dot →
      hostmatch ap.host s = true → visible (stage.keys okay cp) ap = true := by
    intro s hs hstar hdot hmatch
    refine visible_of_key hs fun hkey => ?_
    rw [hhash] at hkey ⊢
    exact (getAclHash_of_hostmatch hfit hkey hmatch hstar hdot).symm
  have haddress : getAclHash okay (stage.address cp) ∈ stage.keys okay cp →
      ipmatch ap.host (stage.address cp) = true → visible (stage.keys okay cp) ap = true := by
    intro hs hmatch
    have hplain : ¬ (slash ∈ ap.host ∨ colon ∈ ap.host) := fun hmem => hbits hmem hmatch
    rw [not_or] at hplain
    refine visible_of_key hs fun _ => ?_
    rw [hhash, eq_of_ipmatch hplain.1 hplain.2 hmatch]
  have hhost : getAclHash okay cp.host ∈ stage.keys okay cp := by cases stage <;> simp [Stage.keys]
  have hname := hpattern cp.host hhost (hcp.host_ne_star hfit) hcp.head_ne_dot
  cases stage with
  | connect =>
    simp only [Stage.matchesMask, Acl.matchesHost, Bool.or_eq_true] at h
    rcases h with h | h
    · exact haddress hhost h
    · exact hname h
  | prereg | register =>
    simp only [Stage.matchesMask, Acl.matchesAddress, Bool.or_eq_true] at h
    have hip : getAclHash okay cp.ip ∈ [getAclHash okay cp.host, getAclHash okay cp.ip] := by simp
    rcases h with (h | h) | h
    · exact hname h
    · exact hpattern cp.ip hip hcp.ip.ne_star hcp.ip.head_ne_dot h
    · exact haddress hip h

theorem Acl.Exposed.matchesMask {okay : HostMap} {stage : Stage} {cp : AclConnection} {ap : Acl}
    (h : ap.Exposed okay stage cp) : stage.matchesMask cp ap = true := by
  rcases h with ⟨-, hip⟩ | ⟨-, hmatch⟩
  · cases stage <;> simp_all [Stage.matchesMask, Stage.address, matchesHost, matchesAddress]
  · exact hmatch

/-- The keys hide nothing of a stage: the decision is the one without them, and no entry whose mask
matches is skipped. -/
def HidesNothing (okay : HostMap) (cls : ℕ → Class) (ep : Bool) (cp : AclConnection)
    (stage : Stage) (l : List Acl) : Prop :=
  (stage.hook okay cls ep cp l = stage.decide cls ep cp l fun _ => true) ∧
    ∀ ap ∈ l, stage.matchesMask cp ap = true → visible (stage.keys okay cp) ap = true

/-- The keys hide nothing exactly when the key of each exposed entry is the default one or one of
the connection's. -/
theorem prefilter_iff {okay : HostMap} {cp : AclConnection} (hcp : cp.Presentable okay)
    (cls : ℕ → Class) (ep : Bool) (stage : Stage) (l : List Acl) :
    HidesNothing okay cls ep cp stage l ↔
      ∀ ap ∈ l, ap.Exposed okay stage cp →
        ap.hash = ACL_DEFAULT_HASH ∨ ap.hash ∈ stage.keys okay cp := by
  have hvisible : ∀ ap, visible (stage.keys okay cp) ap = true ↔
      ap.hash = ACL_DEFAULT_HASH ∨ ap.hash ∈ stage.keys okay cp := by
    intro ap
    simp [visible]
  constructor
  · rintro ⟨-, hseen⟩ ap hap hexposed
    exact (hvisible ap).1 (hseen ap hap hexposed.matchesMask)
  · intro hexposed
    have hseen : ∀ ap ∈ l, stage.matchesMask cp ap = true →
        visible (stage.keys okay cp) ap = true := by
      intro ap hap hmatch
      by_cases hex : ap.Exposed okay stage cp
      · exact (hvisible ap).2 (hexposed ap hap hex)
      · exact visible_of_matchesMask hcp hex hmatch
    refine ⟨?_, hseen⟩
    rw [Stage.hook_eq, Stage.decide_congr stage hseen]

/-- An entry that refuses whoever its mask takes. -/
def denyHost (okay : HostMap) (host : Bytes) : Acl :=
  ⟨.deny, [], host, getAclHash okay host, 0, none, none, none, none, false, false⟩

/-- A connection from an address that has no name. -/
def fromAddress (ip : Bytes) : AclConnection := ⟨ip, ip, [], none, [], []⟩

theorem presentable_fromAddress {okay : HostMap} {ip : Bytes} (h : IpText ip) :
    (fromAddress ip).Presentable okay := ⟨h, .inl h⟩

theorem prefilter_iff_bits :
    HidesNothing hostMap (fun _ => ⟨0, 0⟩) true (fromAddress (bytes "10.1.2.3")) .connect
      [denyHost hostMap (bytes "10.0.0.0/8")] := by
  have hip : IpText (bytes "10.1.2.3") := ⟨49, bytes "0.1.2.3", rfl, .inr rfl⟩
  refine (prefilter_iff (presentable_fromAddress hip) _ _ _ _).2 ?_
  intro ap hap _
  obtain rfl := List.mem_singleton.1 hap
  exact .inl (by decide +kernel)

/-- The netmask behind the `'/'` makes a key of its own: the address passes unseen. -/
theorem prefilter_hides :
    ¬ ∀ okay cp, AclConnection.Presentable okay cp → ∀ cls ep stage l,
      HidesNothing okay cls ep cp stage l := by
  intro hall
  have hip : IpText (bytes "10.0.0.0") := ⟨49, bytes "0.0.0.0", rfl, .inr rfl⟩
  have hnothing := hall hostMap _ (presentable_fromAddress hip) (fun _ => ⟨0, 0⟩) true .connect
    [denyHost hostMap (bytes "10.0.0.0/255.255.255.0")]
  exact absurd hnothing.1 (by decide +kernel)

end Ithildin
