import Ithildin.Acl.Decision
import Ithildin.Acl.Store

/-!
# Forced checks

`acl_force_check` asks the hook of a stage about every connection on the list of the stage once
more, as an entry has been added. By then a connection counts as a client of its class, and a
client's password is gone.

* `Stage.hook_accepts_iff`: the decision of a hook, by the first entry that settles it;
* `AclServer`: the entries, the classes, and the connections that the hooks have let in;
* `AclServer.Aimed`: a forced check takes only connections that the new entry matches;
* `AclServer.aimed_iff`, `AclServer.aimed_of_run_iff`: exactly when it does.
-/

namespace Ithildin

/-! ### The first entry that settles the matter -/

/-- The tests that a hook makes of an entry, beside its key. -/
def Stage.takes : Stage → Acl → AclConnection → Bool
  | .connect, ap, cp => ap.matchesHost cp.host
  | .prereg, ap, cp => ap.matchesUser cp.user && ap.matchesAddress cp
  | .register, ap, cp => ap.fits cp && ap.passes cp

/-- The class of an ALLOW has room for one more. -/
def Stage.hasRoom : Stage → Class → Bool
  | .connect, _ => true
  | .prereg, c => c.clients < c.max
  | .register, c => c.hasRoom

/-- An entry that is seen, matches, and is a DENY or an ALLOW whose class has room. -/
def Stage.settles (cls : ℕ → Class) (cp : AclConnection) (stage : Stage) (seen : Acl → Bool)
    (ap : Acl) : Bool :=
  seen ap && stage.takes ap cp && (ap.access == .deny || stage.hasRoom (cls ap.cls))

/-- What the first entry that settles the matter means; without one the first two stages let a
connection in, and the third does if it has no entries at all. -/
def Stage.Accepts (stage : Stage) (none : Prop) (first : Option Acl) : Prop :=
  first.elim (stage ≠ .register ∨ none) fun ap => ap.access = .allow

section
variable {okay : HostMap} {cls : ℕ → Class} {ep : Bool} {cp : AclConnection}

theorem accepts_find?_cons {p : Acl → Bool} {ap : Acl} {l : List Acl} {stage : Stage}
    {none : Prop} :
    stage.Accepts none ((ap :: l).find? p) ↔
      if p ap = true then ap.access = .allow else stage.Accepts none (l.find? p) := by
  by_cases hp : p ap = true
  · simp [Stage.Accepts, List.find?_cons_of_pos hp, hp]
  · simp [List.find?_cons_of_neg hp, hp]

theorem aclStage1Loop_accepts_iff (seen : Acl → Bool) (none : Prop) (l : List Acl) :
    (aclStage1Loop seen cp l).reason = .none ↔
      Stage.connect.Accepts none (l.find? (Stage.connect.settles cls cp seen)) := by
  induction l with
  | nil => simp [aclStage1Loop, Verdict.accept, Stage.Accepts]
  | cons ap l ih =>
    rw [aclStage1Loop, accepts_find?_cons]
    by_cases hseen : seen ap = true
    · by_cases hmatch : ap.matchesHost cp.host = true
      · cases haccess : ap.access <;>
          simp [hseen, hmatch, haccess, Verdict.accept, Verdict.refuse, Stage.settles, Stage.takes,
            Stage.hasRoom]
      · simp [hseen, hmatch, ih, Stage.settles, Stage.takes]
    · simp [hseen, ih, Stage.settles]

theorem aclStage2Loop_accepts_iff (seen : Acl → Bool) (none : Prop) (l : List Acl) :
    (aclStage2Loop seen cls ep cp l).reason = .none ↔
      Stage.prereg.Accepts none (l.find? (Stage.prereg.settles cls cp seen)) := by
  induction l with
  | nil => simp [aclStage2Loop, Verdict.accept, Stage.Accepts]
  | cons ap l ih =>
    rw [aclStage2Loop, accepts_find?_cons]
    by_cases hseen : seen ap = true
    · by_cases hmatch : ap.matchesUser cp.user = true ∧ ap.matchesAddress cp = true
      · cases haccess : ap.access with
        | deny => simp [hseen, hmatch, haccess, Verdict.refuse, Stage.settles, Stage.takes]
        | allow =>
          by_cases hroom : (cls ap.cls).clients < (cls ap.cls).max
          · simp [hseen, hmatch, haccess, hroom, Verdict.accept, Stage.settles, Stage.takes,
              Stage.hasRoom]
          · simp [hseen, hmatch, haccess, hroom, ih, Stage.settles, Stage.takes, Stage.hasRoom]
      · have hmask : (ap.matchesUser cp.user && ap.matchesAddress cp) = false := by
          rw [← Bool.not_eq_true, Bool.and_eq_true]
          exact hmatch
        simp [hseen, hmatch, hmask, ih, Stage.settles, Stage.takes]
    · simp [hseen, ih, Stage.settles]

theorem admits_iff_accepts {first : Option Acl} :
    Admits first ↔ Stage.register.Accepts False first := by
  cases first <;> simp [Admits, Stage.Accepts]

/-- A hook decides as the first entry that settles the matter. -/
theorem Stage.hook_accepts_iff (l : List Acl) (stage : Stage) :
    (stage.hook okay cls ep cp l).reason = none ↔
      stage.Accepts (l = []) (l.find? (stage.settles cls cp (visible (stage.keys okay cp)))) := by
  cases stage with
  | connect => exact aclStage1Loop_accepts_iff _ _ l
  | prereg => exact aclStage2Loop_accepts_iff _ _ l
  | register =>
    by_cases hl : l = []
    · subst hl
      simp [hook, aclStage3Hook, Verdict.accept, Accepts]
    · have hpred : register.settles cls cp (visible (register.keys okay cp)) =
          fun ap => (ap.fits cp && ap.passes cp && ap.settles cls) &&
            visible [getAclHash okay cp.host, getAclHash okay cp.ip] ap := by
        funext ap
        rw [settles, Bool.and_assoc, Bool.and_comm]
        rfl
      rw [hook, aclStage3Hook, if_neg hl, aclStage3Loop_admits_iff, admits_iff_accepts, hpred]
      simp only [hl]

end

/-! ### The server -/

/-- `struct acl`, as the hooks read it. -/
def AclEntry.acl (ap : AclEntry) : Acl where
  access := if ap.access = ACL_DENY then .deny else .allow
  user := ap.user
  host := ap.host
  hash := ap.hash
  cls := ap.cls
  info := ap.info
  pass := ap.pass
  reason := ap.reason
  redirect := ap.redirect
  skipDns := ap.skipDns
  skipIdent := ap.skipIdent

/-- The entries of a stage, in order. -/
def AclStore.acls (s : AclStore) (stage : Stage) : List Acl :=
  (s.lists stage).filterMap fun id => (s.entry id).map AclEntry.acl

/-- The entries without the one that a new entry displaces. -/
def AclStore.spared (s : AclStore) (spec : AclSpec) : AclStore :=
  (s.displaced spec).elim s s.destroyAcl

theorem AclStore.Ok.spared {s : AclStore} (h : s.Ok) (spec : AclSpec) : (s.spared spec).Ok := by
  unfold AclStore.spared
  cases s.displaced spec with
  | none => exact h
  | some id => exact h.destroyAcl id

theorem AclStore.next_spared (s : AclStore) (spec : AclSpec) : (s.spared spec).next = s.next := by
  unfold AclStore.spared
  cases s.displaced spec with
  | none => rfl
  | some id => exact AclStore.next_destroyAcl s id

/-- A new entry goes somewhere into the list of its stage. -/
theorem AclStore.acls_addAcl {s : AclStore} (h : s.Ok) (f : AclEntry → AclEntry) (ap : AclEntry) :
    ∃ before after, s.acls (stageOf ap.stage) = before ++ after ∧
      ((s.addAcl ap).modify s.next f).acls (stageOf ap.stage) =
        before ++ (f ap).acl :: after := by
  have hentry : ∀ id, ((s.addAcl ap).modify s.next f).entry id =
      if id = s.next then some (f ap) else s.entry id := by
    intro id
    rw [AclStore.entry_modify, AclStore.entry_addAcl, AclStore.entry_addAcl, if_pos rfl]
    split <;> rfl
  obtain ⟨before, later, hlist, hins, -, -⟩ := @Agenda.insert_eq_append ℕ ℕ _
    (AclStore.rule { s with entry := Function.update s.entry s.next (some ap), next := s.next + 1 })
    s.next (s.lists (stageOf ap.stage))
  have hlists : ((s.addAcl ap).modify s.next f).lists (stageOf ap.stage) =
      before ++ s.next :: later := by
    show Function.update s.lists _ _ _ = _
    rw [Function.update_self]
    exact hins
  -- the entries that were there have other numbers
  have hold : ∀ l : List ℕ, (∀ id ∈ l, id ∈ s.lists (stageOf ap.stage)) →
      (l.filterMap fun id =>
        (((s.addAcl ap).modify s.next f).entry id).map AclEntry.acl) =
      l.filterMap fun id => (s.entry id).map AclEntry.acl := by
    intro l hl
    refine List.filterMap_congr fun id hid => ?_
    rw [hentry, if_neg (h.numbered id (h.mem_entry (hl id hid))).ne]
  have hbefore := hold before fun id hid => hlist ▸ List.mem_append_left later hid
  have hlater := hold later fun id hid => hlist ▸ List.mem_append_right before hid
  refine ⟨before.filterMap fun id => (s.entry id).map AclEntry.acl,
    later.filterMap fun id => (s.entry id).map AclEntry.acl, ?_, ?_⟩
  · rw [AclStore.acls, hlist, List.filterMap_append]
  · have hnew : (((s.addAcl ap).modify s.next f).entry s.next).map AclEntry.acl =
        some (f ap).acl := by
      rw [hentry, if_pos rfl]
      rfl
    rw [AclStore.acls, hlists, List.filterMap_append, hbefore]
    congr 1
    rw [← hlater]
    exact List.filterMap_cons_some hnew

/-- A connection with its number and its class. -/
structure AclConn where
  id : ℕ
  data : AclConnection
  cls : ℕ

/-- The entries, the classes, and the connections at each stage: new ones, those whose host and
ident are known, and clients. -/
structure AclServer where
  store : AclStore
  ok : store.Ok
  cls : ℕ → Class
  conns : Stage → List AclConn

/-- The number of a stage. -/
def Stage.number : Stage → ℤ
  | .connect => ACL_STAGE_CONNECT
  | .prereg => ACL_STAGE_PREREG
  | .register => ACL_STAGE_REGISTER

/-- What a loop of `acl_force_check` leaves: the classes, the connections that stay, and those that
are destroyed. -/
structure Forced where
  cls : ℕ → Class
  kept : List AclConn
  gone : List AclConn

/-- `add_to_class` and `del_from_class`, as far as they count. -/
def addToClass (cls : ℕ → Class) (k : ℕ) : ℕ → Class :=
  Function.update cls k { cls k with clients := (cls k).clients + 1 }

def delFromClass (cls : ℕ → Class) (k : ℕ) : ℕ → Class :=
  Function.update cls k { cls k with clients := (cls k).clients - 1 }

/-- A loop of `acl_force_check`. -/
def forceLoop (hook : (ℕ → Class) → AclConnection → Verdict) (cls : ℕ → Class) :
    List AclConn → Forced
  | [] => ⟨cls, [], []⟩
  | c :: l =>
      if (hook cls c.data).reason.isSome then
        let r := forceLoop hook (delFromClass cls c.cls) l
        { r with gone := c :: r.gone }
      else
        let r := forceLoop hook cls l
        { r with kept := c :: r.kept }

/-- What may happen to the server. -/
inductive AclServerAction
  | store (a : AclAction)
  | limit (cls : ℕ) (max : ℤ)
  | connect (id : ℕ) (data : AclConnection)
  | advance (id : ℕ) (data : AclConnection)
  | register (id : ℕ) (data : AclConnection)
  | leave (stage : Stage) (id : ℕ)
  | force (stage : Stage) (spec : AclSpec) (f : AclFields)

/-- What makes up the entries and the classes. -/
def AclServerAction.IsSetup : AclServerAction → Prop
  | .store _ | .limit _ _ => True
  | _ => False

/-- What connections do. -/
def AclServerAction.IsArrival : AclServerAction → Prop
  | .connect _ _ | .advance _ _ | .register _ _ | .leave _ _ => True
  | _ => False

namespace AclServer

section
variable (okay : HostMap)

/-- No entries, and no connections. -/
def start (max : ℕ → ℤ) : AclServer := ⟨.empty, AclStore.ok_empty, fun k => ⟨max k, 0⟩, fun _ => []⟩

/-- A connection is off its list and comes to a stage: the hook refuses it and it is destroyed, or
it changes to the class it is put in. -/
def enter (s : AclServer) (stage : Stage) (c : AclConn) : AclServer :=
  let v := stage.hook okay s.cls true c.data (s.store.acls stage)
  let k := v.joined.getD c.cls
  if v.reason.isSome then { s with cls := delFromClass s.cls c.cls }
  else
    { s with
      cls := if k = c.cls then s.cls else addToClass (delFromClass s.cls c.cls) k
      conns := Function.update s.conns stage ({ c with cls := k } :: s.conns stage) }

/-- A connection is taken off a list. -/
def remove (s : AclServer) (stage : Stage) (id : ℕ) : AclServer :=
  { s with
    conns := Function.update s.conns stage ((s.conns stage).eraseP fun c => c.id = id) }

/-- The connection with a number on the list of a stage. -/
def find (s : AclServer) (stage : Stage) (id : ℕ) : Option AclConn :=
  (s.conns stage).find? fun c => c.id = id

/-- A registered client has no password any more. -/
def dropPass (s : AclServer) (id : ℕ) : AclServer :=
  { s with
    conns := Function.update s.conns .register ((s.conns .register).map fun c =>
      if c.id = id then { c with data := { c.data with pass := none } } else c) }

/-- An entry is added to the list of a stage and filled in. -/
def addAcl (s : AclServer) (stage : Stage) (spec : AclSpec) (f : AclFields) : AclServer :=
  { s with
    store := (s.store.createAcl okay { spec with stage := stage.number }).modify s.store.next
      fun ap => ap.fill f
    ok := s.ok.createFilled okay _ f }

/-- `acl_force_check` for one stage. -/
def forceStage (s : AclServer) (stage : Stage) : Forced :=
  forceLoop (fun cls cp => stage.hook okay cls false cp (s.store.acls stage)) s.cls (s.conns stage)

/-- What `acl_force_check` leaves. -/
def aclForceCheck (s : AclServer) (stage : Stage) : AclServer :=
  let r := s.forceStage okay stage
  { s with cls := r.cls, conns := Function.update s.conns stage r.kept }

/-- One action: a number is given to one connection only. -/
def step (s : AclServer) : AclServerAction → Option AclServer
  | .store a => match h : s.store.step okay a with
      | none => none
      | some store => some { s with store := store, ok := s.ok.step h }
  | .limit k max =>
      some { s with cls := Function.update s.cls k { s.cls k with max := max } }
  | .connect id data =>
      if (s.find .connect id).isSome ∨ (s.find .prereg id).isSome ∨
        (s.find .register id).isSome then
        none
      else some ({ s with cls := addToClass s.cls 0 }.enter okay .connect ⟨id, data, 0⟩)
  | .advance id data => (s.find .connect id).map fun c =>
      (s.remove .connect id).enter okay .prereg { c with data := data }
  | .register id data => (s.find .prereg id).map fun c =>
      ((s.remove .prereg id).enter okay .register { c with data := data }).dropPass id
  | .leave stage id => (s.find stage id).map fun c =>
      { s.remove stage id with cls := delFromClass s.cls c.cls }
  | .force stage spec f => some ((s.addAcl okay stage spec f).aclForceCheck okay stage)

/-- The entry that a forced check is about. -/
def newAcl (s : AclServer) (stage : Stage) (spec : AclSpec) (f : AclFields) : Acl :=
  ((s.store.newAcl okay { spec with stage := stage.number }).fill f).acl

/-- The entries there were, but for one that the new one displaces. -/
def oldAcls (s : AclServer) (stage : Stage) (spec : AclSpec) : List Acl :=
  (s.store.spared { spec with stage := stage.number }).acls stage

/-- A forced check destroys only connections that the new entry matches. -/
def Aimed (s : AclServer) : AclServerAction → Prop
  | .force stage spec f => ∀ c ∈ ((s.addAcl okay stage spec f).forceStage okay stage).gone,
      stage.takes (s.newAcl okay stage spec f) c.data = true
  | _ => True

/-- A connection would be let in by a list of entries: the first that settles the matter is an
ALLOW, or in the first two stages there is none. -/
def LetIn (stage : Stage) (cls : ℕ → Class) (c : AclConn) (l : List Acl) : Prop :=
  stage.Accepts False (l.find? (stage.settles cls c.data (visible (stage.keys okay c.data))))

/-- Every connection that the new entry does not match would be let in by the entries there were, in
its turn: of those in front of it, the ones that the new entry matches have left their classes
unless the entries there are let them in. -/
def CalmFrom (stage : Stage) (old acls : List Acl) (new : Acl) :
    (ℕ → Class) → List AclConn → Prop
  | _, [] => True
  | cls, c :: l =>
      if stage.takes new c.data then
        (LetIn okay stage cls c acls → CalmFrom stage old acls new cls l) ∧
          (¬ LetIn okay stage cls c acls →
            CalmFrom stage old acls new (delFromClass cls c.cls) l)
      else LetIn okay stage cls c old ∧ CalmFrom stage old acls new cls l

/-- Whoever the new entry of a forced check does not match would be let in without it. -/
def Calm (s : AclServer) : AclServerAction → Prop
  | .force stage spec f =>
      CalmFrom okay stage (s.oldAcls stage spec) ((s.addAcl okay stage spec f).store.acls stage)
        (s.newAcl okay stage spec f) s.cls (s.conns stage)
  | _ => True

end

section
variable {okay : HostMap} {s : AclServer} {stage : Stage} {spec : AclSpec} {f : AclFields}

theorem stageOf_number (stage : Stage) : stageOf stage.number = stage := by
  cases stage <;> rfl

/-- The new entry goes somewhere among the old ones. -/
theorem acls_addAcl (okay : HostMap) (s : AclServer) (stage : Stage) (spec : AclSpec)
    (f : AclFields) : ∃ before after, s.oldAcls stage spec = before ++ after ∧
      (s.addAcl okay stage spec f).store.acls stage =
        before ++ s.newAcl okay stage spec f :: after := by
  have hadd := AclStore.acls_addAcl (s.ok.spared { spec with stage := stage.number })
    (fun ap => ap.fill f) (s.store.newAcl okay { spec with stage := stage.number })
  rw [AclStore.next_spared] at hadd
  have hstage : stageOf (s.store.newAcl okay { spec with stage := stage.number }).stage = stage :=
    stageOf_number stage
  rwa [hstage] at hadd

/-- With the new entry the list is not empty, and the hook lets in whom its entries let in. -/
theorem hook_addAcl_accepts_iff {cls : ℕ → Class} {ep : Bool} {c : AclConn} :
    (stage.hook okay cls ep c.data ((s.addAcl okay stage spec f).store.acls stage)).reason = none ↔
      LetIn okay stage cls c ((s.addAcl okay stage spec f).store.acls stage) := by
  obtain ⟨before, after, -, hnew⟩ := acls_addAcl okay s stage spec f
  have hempty : (before ++ s.newAcl okay stage spec f :: after = []) = False :=
    eq_false (by simp)
  rw [Stage.hook_accepts_iff, LetIn, hnew, hempty]

/-- A connection that the new entry does not match is judged by the old ones. -/
theorem letIn_addAcl_iff {cls : ℕ → Class} {c : AclConn}
    (htakes : ¬ stage.takes (s.newAcl okay stage spec f) c.data = true) :
    LetIn okay stage cls c ((s.addAcl okay stage spec f).store.acls stage) ↔
      LetIn okay stage cls c (s.oldAcls stage spec) := by
  obtain ⟨before, after, hold, hnew⟩ := acls_addAcl okay s stage spec f
  have hsettles : ¬ stage.settles cls c.data (visible (stage.keys okay c.data))
      (s.newAcl okay stage spec f) = true := by
    simp [Stage.settles, htakes]
  rw [LetIn, LetIn, hnew, hold, List.find?_append, List.find?_append,
    List.find?_cons_of_neg hsettles]

/-- The loop takes only connections that the new entry matches exactly when the others would be let
in by the old ones. -/
theorem forall_gone_iff (cls : ℕ → Class) (l : List AclConn) :
    (∀ c ∈ (forceLoop (fun cls cp => stage.hook okay cls false cp
        ((s.addAcl okay stage spec f).store.acls stage)) cls l).gone,
      stage.takes (s.newAcl okay stage spec f) c.data = true) ↔
      CalmFrom okay stage (s.oldAcls stage spec) ((s.addAcl okay stage spec f).store.acls stage)
        (s.newAcl okay stage spec f) cls l := by
  induction l generalizing cls with
  | nil => simp [forceLoop, CalmFrom]
  | cons c l ih =>
    have hhook := @hook_addAcl_accepts_iff okay s stage spec f cls false c
    rw [← Option.not_isSome_iff_eq_none] at hhook
    rw [forceLoop, CalmFrom]
    by_cases hin : LetIn okay stage cls c ((s.addAcl okay stage spec f).store.acls stage)
    · rw [if_neg (hhook.mpr hin)]
      show (∀ b ∈ (forceLoop _ cls l).gone, _) ↔ _
      rw [ih]
      by_cases htakes : stage.takes (s.newAcl okay stage spec f) c.data = true
      · rw [if_pos htakes]
        exact ⟨fun h => ⟨fun _ => h, fun hout => absurd hin hout⟩, fun h => h.1 hin⟩
      · rw [if_neg htakes, ← letIn_addAcl_iff htakes]
        exact ⟨fun h => ⟨hin, h⟩, And.right⟩
    · rw [if_pos (not_not.mp fun hsome => hin (hhook.mp hsome))]
      show (∀ b ∈ c :: (forceLoop _ (delFromClass cls c.cls) l).gone, _) ↔ _
      rw [List.forall_mem_cons, ih]
      by_cases htakes : stage.takes (s.newAcl okay stage spec f) c.data = true
      · rw [if_pos htakes]
        exact ⟨fun h => ⟨fun hc => absurd hc hin, fun _ => h.2⟩, fun h => ⟨htakes, h.2 hin⟩⟩
      · rw [if_neg htakes, ← letIn_addAcl_iff htakes]
        exact ⟨fun h => absurd h.1 htakes, fun h => absurd h.1 hin⟩

/-- A forced check takes only connections that the new entry matches exactly when the others would
be let in by the old ones. -/
theorem aimed_iff (a : AclServerAction) : s.Aimed okay a ↔ s.Calm okay a := by
  cases a with
  | force stage spec f => exact forall_gone_iff s.cls (s.conns stage)
  | _ => exact Iff.rfl

end

/-- In every run the forced checks are aimed exactly when they are calm. -/
theorem aimed_of_run_iff (okay : HostMap) (max : ℕ → ℤ) (as : List AclServerAction) :
    Run.Along (step okay) (Aimed okay) (start max) as ↔
      Run.Along (step okay) (Calm okay) (start max) as :=
  Run.along_iff (I := fun _ => True) (fun _ _ _ _ _ _ => trivial) (fun _ _ _ => aimed_iff _) trivial

/-- The only client of a class for one is turned out by an entry against someone else. -/
theorem aimed_fails :
    ¬ ∀ okay max setup arrivals, (∀ a ∈ setup, a.IsSetup) → (∀ a ∈ arrivals, a.IsArrival) →
      ∀ s, Run.run (step okay) (start max) (setup ++ arrivals) = some s →
        ∀ stage spec f, s.Aimed okay (.force stage spec f) := by
  intro hall
  let allow : AclSpec := ⟨ACL_STAGE_REGISTER, ACL_ALLOW, bytes "*", [], 1000, 1⟩
  let deny : AclSpec := ⟨ACL_STAGE_REGISTER, ACL_DENY, bytes "10.9.9.9", [], 500, 0⟩
  let cp : AclConnection := fromAddress (bytes "10.1.2.3")
  let arrivals : List AclServerAction := [.connect 0 cp, .advance 0 cp, .register 0 cp]
  have hrun : ((Run.run (step hostMap) (start fun _ => 1)
        ([.store (.create allow)] ++ arrivals)).any
      fun s => ((s.addAcl hostMap .register deny {}).forceStage hostMap .register).gone.any
        fun c => !Stage.register.takes (s.newAcl hostMap .register deny {}) c.data) = true := by
    decide +kernel
  obtain ⟨s, hs, hgone⟩ := (Option.any_eq_true _ _).mp hrun
  obtain ⟨c, hc, htakes⟩ := List.any_eq_true.mp hgone
  have haimed := hall hostMap (fun _ => 1) [.store (.create allow)] arrivals
    (by simp [AclServerAction.IsSetup]) (by simp [arrivals, AclServerAction.IsArrival]) s hs
      .register
    deny {} c hc
  rw [haimed] at htakes
  cases htakes

end AclServer

end Ithildin
