import Ithildin.Acl.Prefilter
import Ithildin.Lib.Agenda
import Ithildin.Lib.Run
import Ithildin.Numbers
import Mathlib.Tactic.Common

/-!
# The store of access control entries

The lists of `acl.c` and the functions that change them: `create_acl` and `destroy_acl`, the timers
of entries, and `acl_conf_hook`, which reads the configuration again. Entries are numbered as they
are allocated, so that of two entries the one with the smaller number was inserted first.

* `AclStore.createAcl`, `AclStore.destroyAcl`, `AclStore.aclConfHook`: the functions;
* `AclStore.Ok`: every entry is on the master list and on the list of its stage, in order;
* `Ok.step`: whatever happens keeps it so.
-/

namespace Ithildin

/-- `ACL_STAGE_CONNECT`, `ACL_STAGE_PREREG` and `ACL_STAGE_REGISTER`. -/
def ACL_STAGE_CONNECT : ℤ := 1
def ACL_STAGE_PREREG : ℤ := 2
def ACL_STAGE_REGISTER : ℤ := 3

/-- `ACL_ACCESS_ANY`, `ACL_DENY` and `ACL_ALLOW`. -/
def ACL_ACCESS_ANY : ℤ := -1
def ACL_DENY : ℤ := 0
def ACL_ALLOW : ℤ := 1

/-- `ACL_ANY_RULE` and `ACL_DEFAULT_RULE`. -/
def ACL_ANY_RULE : ℤ := -1
def ACL_DEFAULT_RULE : ℤ := -2

/-- `ACLCONF_DEFAULT_RULE` and `ACLCONF_DEFAULT_CONF_RULE`. -/
def ACLCONF_DEFAULT_RULE : ℤ := 1000
def ACLCONF_DEFAULT_CONF_RULE : ℤ := 2000

/-- `ACL_USERLEN` and `ACL_HOSTLEN`. -/
def ACL_USERLEN : ℕ := USERLEN * 2
def ACL_HOSTLEN : ℕ := HOSTLEN

/-- A value as it is stored in an `unsigned short`, be it through a `short`. -/
def toUShort (v : ℤ) : UInt16 := (v % 65536).toNat.toUInt16

/-- `str_conv_int` of a value that may be missing. -/
def strConvIntOf (str : Option Bytes) (default : ℤ) : ℤ :=
  str.elim default fun str => strConvInt str default

/-- `acl_t`, without its times; `conf` is whether it points to a configuration. -/
structure AclEntry where
  stage : ℤ
  access : ℤ
  rule : UInt16
  hash : UInt32
  cls : ℕ
  user : Bytes
  host : Bytes
  reason : Option Bytes := none
  info : Option Bytes := none
  pass : Option Bytes := none
  redirect : Option (Bytes × ℤ) := none
  timer : Option ℕ := none
  skipDns : Bool := false
  skipIdent : Bool := false
  type : Bytes
  conf : Bool := false
  deriving DecidableEq

/-- The arguments of `create_acl`, and the class that is the default one at that time. -/
structure AclSpec where
  stage : ℤ
  access : ℤ
  host : Bytes
  type : Bytes
  rule : ℤ
  cls : ℕ

/-- What callers of `create_acl` write into the new entry. -/
structure AclFields where
  conf : Bool := true
  cls : Option ℕ := none
  reason : Option Bytes := none
  info : Option Bytes := none
  pass : Option Bytes := none
  redirect : Option (Bytes × ℤ) := none
  skipDns : Bool := false
  skipIdent : Bool := false

/-- The entries, the master list `acl.list`, the lists of the stages, `acl.default_rule`, and the
timers with the entries they belong to; `next` and `nextTimer` number entries and timers. -/
structure AclStore where
  entry : ℕ → Option AclEntry
  list : List ℕ
  lists : Stage → List ℕ
  defaultRule : UInt16
  timers : ℕ → Option ℕ
  next : ℕ
  nextTimer : ℕ

/-- The list a stage number stands for: whatever is neither the first nor the second is the third.
-/
def stageOf (stage : ℤ) : Stage :=
  if stage = ACL_STAGE_CONNECT then .connect
  else if stage = ACL_STAGE_PREREG then .prereg
  else .register

/-- The user and the host of a mask, cut to the lengths of their fields. -/
def splitMask (hostmask : Bytes) : Bytes × Bytes :=
  let hostcopy := hostmask.take (ACL_USERLEN + ACL_HOSTLEN + 1)
  match behindByte atSign hostcopy with
  | none => ([], hostcopy.take ACL_HOSTLEN)
  | some host => ((hostcopy.takeWhile (· != atSign)).take ACL_USERLEN, host.take ACL_HOSTLEN)

/-- The test of `find_acl`. -/
def AclEntry.similar (ap : AclEntry) (acc : ℤ) (user host type : Bytes) (rule : ℤ) : Bool :=
  (decide (acc = ACL_ACCESS_ANY) || decide (ap.access = acc)) &&
    (decide (rule = ACL_ANY_RULE) || decide ((ap.rule.toNat : ℤ) = rule)) &&
    (sameCase ap.user user && sameCase ap.host host && sameCase ap.type type)

/-- The entry after its fields are filled in. -/
def AclEntry.fill (ap : AclEntry) (f : AclFields) : AclEntry :=
  { ap with
    conf := ap.conf || f.conf
    cls := f.cls.getD ap.cls
    reason := f.reason.or ap.reason
    info := f.info.or ap.info
    pass := f.pass.or ap.pass
    redirect := f.redirect.or ap.redirect
    skipDns := ap.skipDns || f.skipDns
    skipIdent := ap.skipIdent || f.skipIdent }

namespace AclStore

/-- The store as `MODULE_LOADER(acl)` makes it, before it reads the configuration. -/
def empty : AclStore := ⟨fun _ => none, [], fun _ => [], 0, fun _ => none, 0, 0⟩

section
variable (okay : HostMap) (s : AclStore)

/-- The rule number of an entry. -/
def rule (id : ℕ) : ℕ := (s.entry id).elim 0 fun ap => ap.rule.toNat

/-- The rule that a rule number stands for. -/
def ruleGiven (rule : ℤ) : ℤ := if rule = ACL_DEFAULT_RULE then s.defaultRule.toNat else rule

/-- `find_acl`, without a password and without an info mask. -/
def findAcl (stage acc : ℤ) (hostmask type : Bytes) (rule : ℤ) : Option ℕ :=
  let (user, host) := splitMask hostmask
  (s.lists (stageOf stage)).find? fun id =>
    (s.entry id).any fun ap => ap.similar acc user host type (s.ruleGiven rule)

/-- `destroy_timer` of the timer of an entry, if it has one. -/
def destroyTimer (timer : Option ℕ) : AclStore :=
  { s with timers := timer.elim s.timers fun ref => Function.update s.timers ref none }

/-- `destroy_acl`. -/
def destroyAcl (id : ℕ) : AclStore :=
  match s.entry id with
  | none => s
  | some ap =>
      { s.destroyTimer ap.timer with
        entry := Function.update s.entry id none
        list := s.list.filter (· ≠ id)
        lists := fun stage => (s.lists stage).filter (· ≠ id) }

/-- The entry that `create_acl` allocates. -/
def newAcl (spec : AclSpec) : AclEntry where
  stage := spec.stage
  access := spec.access
  rule := if spec.rule = ACL_DEFAULT_RULE then s.defaultRule else toUShort spec.rule
  hash := getAclHash okay (splitMask spec.host).2
  cls := spec.cls
  user := (splitMask spec.host).1
  host := (splitMask spec.host).2
  type := spec.type

/-- The entry that `create_acl` deletes: the one it finds, if that has no info mask. -/
def displaced (spec : AclSpec) : Option ℕ :=
  (s.findAcl spec.stage spec.access spec.host spec.type spec.rule).filter fun id =>
    (s.entry id).any fun ap => ap.info.isNone

/-- A new entry is put on its lists: at the head of the master list, and in front of the first entry
of its stage with a greater rule number. -/
def addAcl (ap : AclEntry) : AclStore :=
  let t := { s with entry := Function.update s.entry s.next (some ap), next := s.next + 1 }
  { t with
    list := s.next :: s.list
    lists := Function.update s.lists (stageOf ap.stage)
      (Agenda.insert t.rule s.next (s.lists (stageOf ap.stage))) }

/-- `create_acl`; the new entry has the number `s.next`. -/
def createAcl (spec : AclSpec) : AclStore :=
  ((s.displaced spec).elim s s.destroyAcl).addAcl (s.newAcl okay spec)

/-- An entry is written to. -/
def modify (id : ℕ) (f : AclEntry → AclEntry) : AclStore :=
  { s with entry := Function.update s.entry id ((s.entry id).map f) }

/-- `acl_add_timer`. -/
def aclAddTimer (id : ℕ) : AclStore :=
  let t := s.destroyTimer ((s.entry id).bind AclEntry.timer)
  { t.modify id fun ap => { ap with timer := some s.nextTimer } with
    timers := Function.update t.timers s.nextTimer (some id)
    nextTimer := s.nextTimer + 1 }

/-- `acl_timer_hook`, as the timer of an entry runs out. -/
def aclTimerHook (ref id : ℕ) : AclStore :=
  ({ s with timers := Function.update s.timers ref none }.modify id
    fun ap => { ap with timer := none }).destroyAcl id

end

end AclStore

/-! ### Reading the configuration -/

/-- An `acl` list of the configuration: its text, what its entries say, and the hosts that its
`host` entries and its host lists have, in this order. -/
structure AclBlock where
  string : Option Bytes
  stage : Option Bytes
  access : Option Bytes
  cls : ℕ
  pass : Option Bytes
  info : Option Bytes
  reason : Option Bytes
  redirect : Option Bytes
  skipDns : Bool
  skipIdent : Bool
  hosts : List Bytes

/-- What `acl_conf_hook` reads. -/
structure AclConf where
  defaultAclRule : Option Bytes
  defaultAclConfRule : Option Bytes
  blocks : List AclBlock

namespace AclBlock

variable (b : AclBlock) (default : ℤ)

/-- The rule number: the default one if the text is none or says one that is no `unsigned short`. -/
def ruleNumber : ℤ :=
  let rule := b.string.elim default fun str => strConvInt str (-1)
  if rule < 0 ∨ 65535 < rule then default else rule

/-- The access as the block says it. -/
def accessSaid (said : Bytes) : ℤ := if sameCase said (bytes "allow") then ACL_ALLOW else ACL_DENY

/-- The server and the port of a redirect, if they can be read. -/
def redirection : Option (Bytes × ℤ) :=
  b.redirect.bind fun redir =>
    let server := match behindByte colon redir with
      | some port => ((redir.takeWhile (· != colon)).take SERVLEN, strConvInt port 0)
      | none => (redir.take SERVLEN, 6667)
    if server.1 ≠ [] ∧ server.2 ≠ 0 then some server else none

/-- The entries that a block makes, one for each host: what `create_acl` is called with, and what is
filled in behind it.  A redirect forces a DENY, but gives it no reason. -/
def entries : List (AclSpec × AclFields) :=
  match b.access with
  | none => []
  | some said =>
      let access := if b.redirect.isSome then ACL_DENY else accessSaid said
      let reason := if accessSaid said = ACL_DENY then some (b.reason.getD notAuthorised) else none
      b.hosts.map fun host =>
        (⟨strConvIntOf b.stage ACL_STAGE_REGISTER, access, host, bytes "acl", b.ruleNumber default,
            b.cls⟩,
          { cls := some b.cls, reason := reason, info := b.info, pass := b.pass,
            redirect := b.redirection, skipDns := b.skipDns, skipIdent := b.skipIdent })

end AclBlock

namespace AclStore

section
variable (okay : HostMap)

/-- The entries that point to a configuration are removed. -/
def dropConf (s : AclStore) : AclStore :=
  s.list.foldl (fun s id => if (s.entry id).any AclEntry.conf then s.destroyAcl id else s) s

/-- `ACL_PARSE_ADD` for one host after the other. -/
def addAll : AclStore → List (AclSpec × AclFields) → AclStore
  | s, [] => s
  | s, (spec, f) :: l => addAll ((s.createAcl okay spec).modify s.next fun ap => ap.fill f) l

/-- The store when `acl_conf_hook` comes to the blocks of the configuration. -/
def cleared (s : AclStore) (conf : AclConf) : AclStore :=
  { s.dropConf with
    defaultRule := toUShort (strConvIntOf conf.defaultAclRule ACLCONF_DEFAULT_RULE) }

/-- The entries that the configuration makes. -/
def confEntries (conf : AclConf) : List (AclSpec × AclFields) :=
  conf.blocks.flatMap fun b =>
    b.entries (strConvIntOf conf.defaultAclConfRule ACLCONF_DEFAULT_CONF_RULE)

/-- `acl_conf_hook`. -/
def aclConfHook (s : AclStore) (conf : AclConf) : AclStore :=
  (s.cleared conf).addAll okay (confEntries conf)

end

end AclStore

/-- What may happen to the store. -/
inductive AclAction
  | create (spec : AclSpec)
  | fill (id : ℕ) (f : AclFields)
  | addTimer (id : ℕ)
  | destroy (id : ℕ)
  | expire (ref : ℕ)
  | reload (conf : AclConf)

namespace AclStore

variable (okay : HostMap)

/-- One action; callers have entries that are there, and a timer runs out that is there. -/
def step (s : AclStore) : AclAction → Option AclStore
  | .create spec => some (s.createAcl okay spec)
  | .fill id f => if (s.entry id).isSome then some (s.modify id fun ap => ap.fill f) else none
  | .addTimer id => if (s.entry id).isSome then some (s.aclAddTimer id) else none
  | .destroy id => if (s.entry id).isSome then some (s.destroyAcl id) else none
  | .expire ref => (s.timers ref).map fun id => s.aclTimerHook ref id
  | .reload conf => some (s.aclConfHook okay conf)

/-- The calls of `create_acl` that `addAll` makes, each with the store it is made on. -/
def addCalls : AclStore → List (AclSpec × AclFields) → List (AclStore × AclSpec)
  | _, [] => []
  | s, (spec, f) :: l =>
      (s, spec) :: addCalls ((s.createAcl okay spec).modify s.next fun ap => ap.fill f) l

/-- The calls of `create_acl` that an action makes. -/
def createCalls (s : AclStore) : AclAction → List (AclStore × AclSpec)
  | .create spec => [(s, spec)]
  | .reload conf => (s.cleared conf).addCalls okay (confEntries conf)
  | _ => []

/-! ### The store in order -/

/-- The order of the lists: by rule number, and of equal rules the one inserted first. -/
def Before (s : AclStore) (a b : ℕ) : Prop := s.rule a < s.rule b ∨ s.rule a = s.rule b ∧ a < b

/-- Every entry is on the master list, the newest first, and on the list of its stage only, in
order; the timers there are are those of the entries. -/
structure Ok (s : AclStore) : Prop where
  master : ∀ id, id ∈ s.list ↔ (s.entry id).isSome
  newest : s.list.Pairwise (· > ·)
  staged : ∀ stage id, id ∈ s.lists stage ↔ ∃ ap, s.entry id = some ap ∧ stageOf ap.stage = stage
  sorted : ∀ stage, (s.lists stage).Pairwise s.Before
  numbered : ∀ id, (s.entry id).isSome → id < s.next
  timed : ∀ ref id, s.timers ref = some id ↔ ∃ ap, s.entry id = some ap ∧ ap.timer = some ref
  timersNumbered : ∀ ref, (s.timers ref).isSome → ref < s.nextTimer

/-! ### What the operations change -/

section
variable {okay : HostMap} {s : AclStore} {id : ℕ} {ap : AclEntry} {spec : AclSpec}

theorem entry_destroyAcl (s : AclStore) (id j : ℕ) :
    (s.destroyAcl id).entry j = if j = id then none else s.entry j := by
  unfold destroyAcl
  split
  · rename_i hnone
    split
    · rename_i heq
      rw [heq, hnone]
    · rfl
  · exact Function.update_apply s.entry id none j

@[simp] theorem next_destroyAcl (s : AclStore) (id : ℕ) : (s.destroyAcl id).next = s.next := by
  unfold destroyAcl
  split <;> rfl

theorem entry_modify (s : AclStore) (id j : ℕ) (f : AclEntry → AclEntry) :
    (s.modify id f).entry j = if j = id then (s.entry id).map f else s.entry j :=
  Function.update_apply s.entry id _ j

theorem entry_addAcl (s : AclStore) (ap : AclEntry) (j : ℕ) :
    (s.addAcl ap).entry j = if j = s.next then some ap else s.entry j :=
  Function.update_apply s.entry s.next (some ap) j

/-- Lists stay in order when the entries on them keep their rules. -/
theorem pairwise_before {t : AclStore} {l : List ℕ} (h : l.Pairwise s.Before)
    (hrule : ∀ id ∈ l, t.rule id = s.rule id) : l.Pairwise t.Before := by
  refine List.Pairwise.imp_of_mem ?_ h
  intro a b ha hb hab
  rw [Before, hrule a ha, hrule b hb]
  exact hab

/-! ### The operations keep the store in order -/

theorem Ok.mem_entry (h : s.Ok) {stage : Stage} (hid : id ∈ s.lists stage) :
    (s.entry id).isSome := by
  obtain ⟨ap, hap, -⟩ := (h.staged stage id).mp hid
  rw [hap]
  rfl

/-- What the timers are when the one of an entry is destroyed. -/
theorem Ok.destroyTimer_timers (h : s.Ok) (hap : s.entry id = some ap) (ref j : ℕ) :
    (s.destroyTimer ap.timer).timers ref = some j ↔ s.timers ref = some j ∧ j ≠ id := by
  cases htimer : ap.timer with
  | none =>
    refine ⟨fun hj => ⟨hj, ?_⟩, fun hj => hj.1⟩
    rintro rfl
    obtain ⟨b, hb, href⟩ := (h.timed ref j).mp hj
    rw [hap, Option.some.injEq] at hb
    rw [← hb, htimer] at href
    exact absurd href (by simp)
  | some own =>
    show Function.update s.timers own none ref = some j ↔ _
    rw [Function.update_apply]
    have hown := (h.timed own id).mpr ⟨ap, hap, htimer⟩
    split
    · rename_i heq
      rw [heq, hown]
      simp [eq_comm]
    · rename_i hne
      refine ⟨fun hj => ⟨hj, ?_⟩, fun hj => hj.1⟩
      rintro rfl
      obtain ⟨b, hb, href⟩ := (h.timed ref j).mp hj
      rw [hap, Option.some.injEq] at hb
      rw [← hb, htimer, Option.some.injEq] at href
      exact hne href.symm

theorem isSome_destroyTimer {timer : Option ℕ} {ref : ℕ}
    (href : ((s.destroyTimer timer).timers ref).isSome) : (s.timers ref).isSome := by
  cases timer with
  | none => exact href
  | some own =>
    have hupd : (Function.update s.timers own none ref).isSome := href
    rw [Function.update_apply] at hupd
    split at hupd
    · exact absurd hupd (by simp)
    · exact hupd

theorem ok_empty : empty.Ok where
  master := by simp [empty]
  newest := List.Pairwise.nil
  staged := by simp [empty]
  sorted := fun _ => List.Pairwise.nil
  numbered := by simp [empty]
  timed := by simp [empty]
  timersNumbered := by simp [empty]

theorem Ok.destroyAcl (h : s.Ok) (id : ℕ) : (s.destroyAcl id).Ok := by
  cases hap : s.entry id with
  | none =>
    have hsame : s.destroyAcl id = s := by simp [AclStore.destroyAcl, hap]
    rwa [hsame]
  | some ap =>
    have hentry := entry_destroyAcl s id
    have hlist : (s.destroyAcl id).list = s.list.filter (· ≠ id) := by
      simp [AclStore.destroyAcl, hap]
    have hlists : ∀ stage, (s.destroyAcl id).lists stage = (s.lists stage).filter (· ≠ id) := by
      simp [AclStore.destroyAcl, hap]
    have htimers : (s.destroyAcl id).timers = (s.destroyTimer ap.timer).timers := by
      simp [AclStore.destroyAcl, hap]
    constructor
    case master =>
      intro j
      rw [hlist, hentry, List.mem_filter, h.master]
      by_cases hj : j = id <;> simp [hj]
    case newest =>
      rw [hlist]
      exact h.newest.filter _
    case staged =>
      intro stage j
      rw [hlists, hentry, List.mem_filter, h.staged]
      by_cases hj : j = id <;> simp [hj]
    case sorted =>
      intro stage
      rw [hlists]
      refine pairwise_before ((h.sorted stage).filter _) fun j hj => ?_
      have hne : j ≠ id := by simpa using (List.mem_filter.mp hj).2
      rw [rule, rule, hentry, if_neg hne]
    case numbered =>
      intro j hj
      rw [hentry] at hj
      rw [next_destroyAcl]
      split at hj
      · exact absurd hj (by simp)
      · exact h.numbered j hj
    case timed =>
      intro ref j
      rw [htimers, h.destroyTimer_timers hap, hentry, h.timed]
      by_cases hj : j = id <;> simp [hj]
    case timersNumbered =>
      intro ref href
      rw [htimers] at href
      have hlt := h.timersNumbered ref (isSome_destroyTimer href)
      have hnext : (s.destroyAcl id).nextTimer = s.nextTimer := by
        simp [AclStore.destroyAcl, hap, destroyTimer]
      rwa [hnext]

/-- The newest entry goes behind those of its rule. -/
theorem pairwise_insert {t : AclStore} {l : List ℕ} {new : ℕ} (h : l.Pairwise t.Before)
    (hnew : ∀ id ∈ l, id < new) : (Agenda.insert t.rule new l).Pairwise t.Before := by
  have hordered : Agenda.Ordered t.rule l := h.imp fun {a b} hab => by
    rcases hab with hlt | ⟨heq, -⟩
    · exact hlt.le
    · exact heq.le
  obtain ⟨before, later, rfl, hins, hbefore, hlater⟩ := hordered.insert_eq_append new
  obtain ⟨hb, hl, hcross⟩ := List.pairwise_append.mp h
  rw [hins, List.pairwise_append, List.pairwise_cons]
  refine ⟨hb, ⟨fun a ha => .inl (hlater a ha), hl⟩, ?_⟩
  intro a ha b hb
  rcases List.mem_cons.mp hb with rfl | hb
  · rcases (hbefore a ha).lt_or_eq with hlt | heq
    · exact .inl hlt
    · exact .inr ⟨heq, hnew a (List.mem_append_left later ha)⟩
  · exact hcross a ha b hb

theorem Ok.notMem_next (h : s.Ok) : s.entry s.next = none := by
  by_contra hne
  exact absurd (h.numbered s.next (Option.isSome_iff_ne_none.mpr hne)) (lt_irrefl _)

theorem Ok.addAcl (h : s.Ok) (hap : ap.timer = none) : (s.addAcl ap).Ok := by
  have hentry := entry_addAcl s ap
  have hnext := h.notMem_next
  have hlt : ∀ stage, ∀ j ∈ s.lists stage, j < s.next := fun stage j hj =>
    h.numbered j (h.mem_entry hj)
  have hrule : ∀ stage, ∀ j ∈ s.lists stage, (s.addAcl ap).rule j = s.rule j := by
    intro stage j hj
    rw [rule, rule, hentry, if_neg (hlt stage j hj).ne]
  constructor
  case master =>
    intro j
    rw [hentry]
    show j ∈ s.next :: s.list ↔ _
    rw [List.mem_cons, h.master]
    by_cases hj : j = s.next <;> simp [hj]
  case newest =>
    refine List.pairwise_cons.mpr ⟨fun j hj => ?_, h.newest⟩
    exact h.numbered j ((h.master j).mp hj)
  case staged =>
    intro stage j
    rw [hentry]
    show j ∈ Function.update s.lists _ _ stage ↔ _
    by_cases hstage : stage = stageOf ap.stage
    · subst hstage
      rw [Function.update_self, Agenda.mem_insert, h.staged]
      by_cases hj : j = s.next
      · simp [hj]
      · simp [hj]
    · rw [Function.update_of_ne hstage, h.staged]
      by_cases hj : j = s.next
      · subst hj
        rw [hnext]
        simp [Ne.symm hstage]
      · simp [hj]
  case sorted =>
    intro stage
    have hold : (s.lists stage).Pairwise (s.addAcl ap).Before :=
      pairwise_before (h.sorted stage) (hrule stage)
    show (Function.update s.lists _ _ stage).Pairwise _
    by_cases hstage : stage = stageOf ap.stage
    · subst hstage
      rw [Function.update_self]
      exact pairwise_insert hold (hlt _)
    · rwa [Function.update_of_ne hstage]
  case numbered =>
    intro j hj
    rw [hentry] at hj
    show j < s.next + 1
    split at hj
    · rename_i heq
      exact heq ▸ Nat.lt_succ_self _
    · exact (h.numbered j hj).trans (Nat.lt_succ_self _)
  case timed =>
    intro ref j
    rw [hentry]
    show s.timers ref = some j ↔ _
    rw [h.timed]
    by_cases hj : j = s.next
    · subst hj
      simp [hnext, hap]
    · simp [hj]
  case timersNumbered => exact h.timersNumbered

/-- An entry is written to, but for its stage and its rule, and the timers change with it. -/
theorem Ok.retimed (h : s.Ok) {f : AclEntry → AclEntry} {timers : ℕ → Option ℕ} {n : ℕ}
    (hf : ∀ ap, (f ap).stage = ap.stage ∧ (f ap).rule = ap.rule)
    (htimed : ∀ ref j, timers ref = some j ↔
      ∃ ap, (s.modify id f).entry j = some ap ∧ ap.timer = some ref)
    (hn : ∀ ref, (timers ref).isSome → ref < n) :
    Ok { s.modify id f with timers := timers, nextTimer := n } := by
  have hentry := entry_modify s id
  have hsome : ∀ j, ((s.modify id f).entry j).isSome = (s.entry j).isSome := by
    intro j
    rw [hentry]
    split
    · rename_i heq
      simp [heq]
    · rfl
  constructor
  case master =>
    intro j
    show j ∈ s.list ↔ ((s.modify id f).entry j).isSome
    rw [hsome]
    exact h.master j
  case newest => exact h.newest
  case staged =>
    intro stage j
    show j ∈ s.lists stage ↔ ∃ ap, (s.modify id f).entry j = some ap ∧ _
    rw [h.staged, hentry]
    by_cases hj : j = id
    · subst hj
      simp [hf]
    · simp [hj]
  case sorted =>
    intro stage
    refine pairwise_before (h.sorted stage) fun j hj => ?_
    show (s.modify id f).rule j = s.rule j
    rw [rule, rule, hentry]
    by_cases hj : j = id
    · subst hj
      cases s.entry j <;> simp [hf]
    · simp [hj]
  case numbered =>
    intro j hj
    have hj' : ((s.modify id f).entry j).isSome := hj
    rw [hsome] at hj'
    exact h.numbered j hj'
  case timed => exact htimed
  case timersNumbered => exact hn

theorem Ok.modify (h : s.Ok) (id : ℕ) {f : AclEntry → AclEntry}
    (hf : ∀ ap, (f ap).stage = ap.stage ∧ (f ap).rule = ap.rule ∧ (f ap).timer = ap.timer) :
    (s.modify id f).Ok := by
  refine h.retimed (fun ap => ⟨(hf ap).1, (hf ap).2.1⟩) (fun ref j => ?_) h.timersNumbered
  rw [h.timed, entry_modify]
  by_cases hj : j = id
  · subst hj
    simp [hf]
  · simp [hj]

theorem Ok.aclAddTimer (h : s.Ok) (hap : s.entry id = some ap) : (s.aclAddTimer id).Ok := by
  have hfresh : ∀ ref j, s.timers ref = some j → ref ≠ s.nextTimer := fun ref j hj =>
    (h.timersNumbered ref (by rw [hj]; rfl)).ne
  have htimer : (s.entry id).bind AclEntry.timer = ap.timer := by rw [hap]; rfl
  refine @Ok.retimed s id h (fun ap => { ap with timer := some s.nextTimer })
    (Function.update (s.destroyTimer _).timers s.nextTimer (some id)) _ (fun _ => ⟨rfl, rfl⟩)
    (fun ref j => ?_) fun ref href => ?_
  · rw [entry_modify, htimer, Function.update_apply]
    by_cases hj : j = id
    · subst hj
      have hgone : ¬ (s.destroyTimer ap.timer).timers ref = some j := fun hj =>
        ((h.destroyTimer_timers hap ref j).mp hj).2 rfl
      by_cases href : ref = s.nextTimer
      · simp [href, hap]
      · simp [href, hap, hgone, Ne.symm href]
    · by_cases href : ref = s.nextTimer
      · subst href
        have hnone : ¬ s.timers s.nextTimer = some j := fun hj => hfresh _ j hj rfl
        rw [h.timed] at hnone
        simpa [hj, Ne.symm hj] using hnone
      · simp [hj, href, h.destroyTimer_timers hap, h.timed]
  · rw [Function.update_apply] at href
    split at href
    · rename_i heq
      exact heq ▸ Nat.lt_succ_self _
    · exact (h.timersNumbered ref (isSome_destroyTimer href)).trans (Nat.lt_succ_self _)

theorem Ok.aclTimerHook (h : s.Ok) {ref : ℕ} (href : s.timers ref = some id) :
    (s.aclTimerHook ref id).Ok := by
  obtain ⟨ap, hap, htimer⟩ := (h.timed ref id).mp href
  have hcleared : Ok ({ s with timers := Function.update s.timers ref none }.modify id
      fun ap => { ap with timer := none }) := by
    refine @Ok.retimed s id h (fun ap => { ap with timer := none })
      (Function.update s.timers ref none) s.nextTimer (fun _ => ⟨rfl, rfl⟩) (fun r j => ?_)
      fun r hr => ?_
    · have hown := h.destroyTimer_timers hap r j
      rw [htimer] at hown
      show (s.destroyTimer (some ref)).timers r = some j ↔ _
      rw [hown, h.timed, entry_modify]
      by_cases hj : j = id
      · simp [hj, hap]
      · simp [hj]
    · exact h.timersNumbered r (@isSome_destroyTimer s (some ref) r hr)
  exact hcleared.destroyAcl id

theorem Ok.createAcl (h : s.Ok) (okay : HostMap) (spec : AclSpec) :
    (s.createAcl okay spec).Ok := by
  unfold AclStore.createAcl
  cases s.displaced spec with
  | none => exact h.addAcl rfl
  | some id => exact (h.destroyAcl id).addAcl rfl

theorem Ok.dropConf (h : s.Ok) : s.dropConf.Ok := by
  unfold AclStore.dropConf
  refine List.foldlRecOn s.list _ h fun t ht id _ => ?_
  split
  · exact ht.destroyAcl id
  · exact ht

theorem Ok.cleared (h : s.Ok) (conf : AclConf) : (s.cleared conf).Ok :=
  ⟨h.dropConf.master, h.dropConf.newest, h.dropConf.staged, h.dropConf.sorted, h.dropConf.numbered,
    h.dropConf.timed, h.dropConf.timersNumbered⟩

theorem Ok.createFilled (h : s.Ok) (okay : HostMap) (spec : AclSpec) (f : AclFields) :
    ((s.createAcl okay spec).modify s.next fun ap => ap.fill f).Ok :=
  (h.createAcl okay spec).modify s.next fun _ => ⟨rfl, rfl, rfl⟩

theorem Ok.addAll (h : s.Ok) (okay : HostMap) (l : List (AclSpec × AclFields)) :
    (s.addAll okay l).Ok := by
  induction l generalizing s with
  | nil => exact h
  | cons e l ih => exact ih (h.createFilled okay e.1 e.2)

theorem Ok.step {a : AclAction} {t : AclStore} (h : s.Ok) (hstep : s.step okay a = some t) :
    t.Ok := by
  cases a with
  | create spec =>
    obtain rfl := Option.some.inj hstep
    exact h.createAcl okay spec
  | fill id f =>
    obtain ⟨-, rfl⟩ := by simpa [AclStore.step] using hstep
    exact h.modify id fun _ => ⟨rfl, rfl, rfl⟩
  | addTimer id =>
    obtain ⟨hsome, rfl⟩ := by simpa [AclStore.step] using hstep
    obtain ⟨ap, hap⟩ := Option.isSome_iff_exists.mp hsome
    exact h.aclAddTimer hap
  | destroy id =>
    obtain ⟨-, rfl⟩ := by simpa [AclStore.step] using hstep
    exact h.destroyAcl id
  | expire ref =>
    obtain ⟨id, href, rfl⟩ := Option.map_eq_some_iff.mp hstep
    exact h.aclTimerHook href
  | reload conf =>
    obtain rfl := Option.some.inj hstep
    exact (h.cleared conf).addAll okay _

/-- Every call of `create_acl` that an action makes is made on a store in order. -/
theorem Ok.createCalls {a : AclAction} (h : s.Ok) :
    ∀ call ∈ s.createCalls okay a, call.1.Ok := by
  cases a with
  | create spec => simpa [AclStore.createCalls] using h
  | reload conf =>
    have haddCalls : ∀ {t : AclStore} (_ : t.Ok) (l : List (AclSpec × AclFields)),
        ∀ call ∈ t.addCalls okay l, call.1.Ok := by
      intro t ht l
      induction l generalizing t with
      | nil => simp [addCalls]
      | cons e l ih =>
        rw [addCalls, List.forall_mem_cons]
        exact ⟨ht, ih (ht.createFilled okay e.1 e.2)⟩
    exact haddCalls (h.cleared conf) _
  | _ => simp [AclStore.createCalls]

end

end AclStore

end Ithildin
