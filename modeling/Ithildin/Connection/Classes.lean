import Ithildin.Lib.Census
import Ithildin.Lib.Run
import Ithildin.Match
import Mathlib.Data.List.Range
import Mathlib.Tactic.Common

/-!
# Connection classes

`class.c`, with the routes by which a connection gets into a class: the hook of a listener,
`server_connect`, `server_introduce`, the OPER command and the stages of the ACL;
`destroy_connection`; and `ircd_parse_classes`, after which `acl_conf_hook` looks up the classes of
the ACLs again.

* `Classes`: the classes, the connections and the ACLs with the pointers between them;
* `Exact`: every class is counted exactly, one perhaps being dead and empty;
* `Settled`: what holds between two calls;
* `settled_of_run`: so it is in every run in which `server_connect` makes no connection;
* `connect_short`: a connection that `server_connect` makes is not counted.
-/

namespace Ithildin

/-- `class_t`. -/
structure ConnClass where
  name : Bytes
  max : ℤ
  clients : ℤ
  dead : Bool

/-- The classes, in the order of `ircd.lists.classes`, and the pointers at them: `cls` of every
connection, and of the ACLs of the configuration. `fault` is set by an access to no class. -/
structure Classes where
  mem : ℕ → Option ConnClass
  list : List ℕ
  conns : ℕ → Option (Option ℕ)
  acls : List (Option ℕ)
  fresh : ℕ
  fault : Bool

inductive ClassAction
  /-- `ircd_listen_hook` accepts a connection -/
  | accept
  /-- `server_connect` gets as far as making a connection -/
  | connect
  /-- `server_introduce`, with the class of the server's conf -/
  | introduce (c : ℕ) (name : Option Bytes)
  /-- The OPER command, with the class of the operator's conf -/
  | oper (c : ℕ) (name : Bytes)
  /-- An ACL of stage 2 or 3 matches that allows the connection: one of the configuration, or one
  that was added and has the default class -/
  | welcome (c : ℕ) (acl : Option ℕ) (register : Bool)
  /-- `destroy_connection` -/
  | destroy (c : ℕ)
  /-- The configuration is read: the names and maxima of the classes, and the class each ACL asks
  for -/
  | reload (classes : List (Bytes × ℤ)) (acls : List (Option Bytes))

namespace Classes

def start : Classes :=
  { mem := fun _ => none, list := [], conns := fun _ => none, acls := [], fresh := 0,
    fault := false }

variable (s : Classes) (k c : ℕ)

def crash : Classes := { s with fault := true }

def put (cl : ConnClass) : Classes := { s with mem := Function.update s.mem k (some cl) }

/-- `conn->cls` is set. -/
def setCls (cls : Option ℕ) : Classes := { s with conns := Function.update s.conns c (some cls) }

/-- `find_class`. -/
def findClass (name : Bytes) : Option ℕ :=
  s.list.find? fun k => (s.mem k).any fun cl => sameCase name cl.name

def createClass (name : Bytes) : Classes :=
  { s with
    mem := Function.update s.mem s.fresh
      (some { name := name.take 31, max := 600, clients := 0, dead := false })
    list := match s.list with
      | [] => [s.fresh]
      | first :: rest => first :: s.fresh :: rest
    fresh := s.fresh + 1 }

/-- `destroy_class`, which spares the default class. -/
def destroyClass : Classes :=
  if s.list.head? = some k then s
  else
    match s.mem k with
    | none => s.crash
    | some cl =>
      if cl.clients ≠ 0 then s.put k { cl with dead := true }
      else { s with mem := Function.update s.mem k none, list := s.list.erase k }

def delFromClass : Classes :=
  match s.conns c with
  | some (some k) =>
    match s.mem k with
    | none => s.crash
    | some cl =>
      let s' := (s.put k { cl with clients := cl.clients - 1 }).setCls c none
      if cl.clients - 1 = 0 ∧ cl.dead = true then s'.destroyClass k else s'
  | _ => s.crash

def addToClass : Classes :=
  match s.conns c with
  | none => s.crash
  | some cls =>
    if cls = some k then s
    else
      let s' := if cls = none then s else s.delFromClass c
      match s'.mem k with
      | none => s'.crash
      | some cl => (s'.put k { cl with clients := cl.clients + 1 }).setCls c (some k)

/-- A class that may be NULL. -/
def addTo (cls : Option ℕ) : Classes :=
  match cls with
  | none => s.crash
  | some k => s.addToClass k c

/-- `calloc` of a connection, and what its class is at first. -/
def newConn (cls : Option ℕ) : Classes :=
  { s with conns := Function.update s.conns s.fresh (some cls), fresh := s.fresh + 1 }

/-- The class of `server_introduce`. -/
def serverClass (name : Option Bytes) : Option ℕ := (name.bind s.findClass).or s.list.head?

/-- The stages 2 and 3 of the ACL, for an ACL that allows the connection. -/
def aclAdmit (cls : Option ℕ) (register : Bool) : Classes :=
  match cls.bind s.mem with
  | none => s.crash
  | some cl =>
    if (register = true ∧ cl.max < 1) ∨ cl.max > cl.clients then s.addTo c cls else s

/-- A class is marked dead by `ircd_parse_classes`, and destroyed if it is empty. -/
def expire : Classes :=
  match s.mem k with
  | none => s.crash
  | some cl => (s.put k { cl with dead := true }).destroyClass k

/-- A class of the configuration. -/
def define (name : Bytes) (max : ℤ) : Classes :=
  match s.findClass name with
  | some k =>
    match s.mem k with
    | none => s.crash
    | some cl => s.put k { cl with dead := false, max := max }
  | none =>
    (s.createClass name).put s.fresh
      { name := name.take 31, max := max, clients := 0, dead := false }

/-- `ircd_parse_classes`. -/
def parseClasses (classes : List (Bytes × ℤ)) : Classes :=
  classes.foldl (fun s cl => s.define cl.1 cl.2) (s.list.foldl (fun s k => s.expire k) s)

/-- The class of an ACL in `acl_conf_hook`. -/
def aclClass (name : Option Bytes) : Option ℕ :=
  match name.bind s.findClass with
  | some k => if (s.mem k).any (·.dead) then s.list.head? else some k
  | none => s.list.head?

def reload (classes : List (Bytes × ℤ)) (acls : List (Option Bytes)) : Classes :=
  let s' := s.parseClasses classes
  { s' with acls := acls.map s'.aclClass }

/-- A connection is destroyed, or put into another class, only while it exists, and the program runs
only with a class. -/
def step : ClassAction → Option Classes
  | .accept => if s.list = [] then none else some ((s.newConn none).addTo s.fresh s.list.head?)
  | .connect => if s.list = [] then none else some (s.newConn s.list.head?)
  | .introduce c name =>
    if (s.conns c).isSome then some (s.addTo c (s.serverClass name)) else none
  | .oper c name =>
    if (s.conns c).isSome then
      some (match s.findClass name with
        | some k => s.addToClass k c
        | none => s)
    else none
  | .welcome c none register =>
    if (s.conns c).isSome then some (s.aclAdmit c s.list.head? register) else none
  | .welcome c (some i) register =>
    if (s.conns c).isSome then s.acls[i]?.map fun cls => s.aclAdmit c cls register else none
  | .destroy c =>
    if (s.conns c).isSome then
      let s' := s.delFromClass c
      some { s' with conns := Function.update s'.conns c none }
    else none
  | .reload classes acls => some (s.reload classes acls)

/-- How many connections point at a class. -/
def pointing : ℕ := Census.count (fun cls => cls == some k) s.conns (List.range s.fresh)

/-- Every class is counted exactly, and those that are dead have connections, but for the default
class and perhaps one other. -/
structure Exact (but : Option ℕ) : Prop where
  fault : s.fault = false
  nodup : s.list.Nodup
  listed : ∀ k, k ∈ s.list ↔ (s.mem k).isSome
  count : ∀ {k cl}, s.mem k = some cl → cl.clients = s.pointing k
  held : ∀ {c k}, s.conns c = some (some k) → (s.mem k).isSome
  dead : ∀ {k cl}, s.mem k = some cl → cl.dead = true →
    some k = but ∨ s.list.head? = some k ∨ 0 < cl.clients
  fresh : ∀ {n}, s.fresh ≤ n → s.mem n = none ∧ s.conns n = none

/-- What holds between two calls: every connection has a class, and every ACL of the configuration
one that is not dead or is the default class. -/
structure Settled : Prop extends s.Exact none where
  classed : ∀ c, s.conns c ≠ some none
  acls : ∀ o ∈ s.acls, s.list ≠ [] → ∃ k cl, o = some k ∧ s.mem k = some cl ∧
    (cl.dead = true → s.list.head? = some k)

/-- What other classes and the ACLs see of a step: the default class is the same, and it and those
that are not dead stay. -/
structure Kept (s s' : Classes) : Prop where
  head : s'.list.head? = s.list.head?
  acls : s'.acls = s.acls
  mem : ∀ k cl, s.mem k = some cl → (cl.dead = true → s.list.head? = some k) →
    ∃ cl', s'.mem k = some cl' ∧ cl'.dead = cl.dead

section
variable {s k c} {s' s'' : Classes} {cl cl' : ConnClass} {o cls : Option ℕ}

theorem Kept.refl : Kept s s := ⟨rfl, rfl, fun _ cl hk _ => ⟨cl, hk, rfl⟩⟩

theorem Kept.trans (h : Kept s s') (h' : Kept s' s'') : Kept s s'' := by
  refine ⟨h'.head.trans h.head, h'.acls.trans h.acls, fun k cl hk hdead => ?_⟩
  obtain ⟨cl₁, hk₁, hd₁⟩ := h.mem k cl hk hdead
  obtain ⟨cl₂, hk₂, hd₂⟩ := h'.mem k cl₁ hk₁ (by rw [hd₁, h.head]; exact hdead)
  exact ⟨cl₂, hk₂, hd₂.trans hd₁⟩

/-! ### Classes and pointers -/

/-- A pointer is written. -/
theorem pointing_update {s' : Classes} (hfresh : s'.fresh = s.fresh)
    (hconns : s'.conns = Function.update s.conns c (some o)) (hc : s.conns c = some cls)
    (hlt : c < s.fresh) (k : ℕ) :
    s'.pointing k + (cls == some k).toNat = s.pointing k + (o == some k).toNat := by
  have hupdate := @Census.total_update _ _ (fun cls => (cls == some k).toNat) s.conns _ c _ (some o)
    List.nodup_range (List.mem_range.mpr hlt)
  rw [hc] at hupdate
  rw [pointing, pointing, hfresh, hconns]
  exact hupdate

/-- A new connection. -/
theorem pointing_newConn (k : ℕ) :
    (s.newConn o).pointing k = s.pointing k + (o == some k).toNat := by
  have hold : Census.total (fun cls => (cls == some k).toNat)
      (Function.update s.conns s.fresh (some o)) (List.range s.fresh) =
      Census.total (fun cls => (cls == some k).toNat) s.conns (List.range s.fresh) :=
    Census.total_update_of_notMem fun hin => (List.mem_range.mp hin).false
  show Census.total _ (Function.update s.conns s.fresh (some o)) (List.range (s.fresh + 1)) = _
  rw [List.range_succ, Census.total_concat, hold, Function.update_self]
  rfl

theorem Exact.lt_fresh (h : s.Exact o) (hc : s.conns c = some cls) : c < s.fresh := by
  by_contra hle
  rw [(h.fresh (not_lt.mp hle)).2] at hc
  cases hc

theorem Exact.class_lt (h : s.Exact o) (hk : s.mem k = some cl) : k < s.fresh := by
  by_contra hle
  rw [(h.fresh (not_lt.mp hle)).1] at hk
  cases hk

theorem Exact.head_mem (h : s.Exact o) (hk : s.list.head? = some k) : ∃ cl, s.mem k = some cl :=
  Option.isSome_iff_exists.mp ((h.listed k).mp (List.mem_of_mem_head? hk))

theorem Exact.findClass_mem (h : s.Exact o) {name : Bytes} (hk : s.findClass name = some k) :
    ∃ cl, s.mem k = some cl :=
  Option.isSome_iff_exists.mp ((h.listed k).mp (List.mem_of_find?_eq_some hk))

/-- No connection points at a class that counts none. -/
theorem Exact.not_held (h : s.Exact o) (hk : s.mem k = some cl) (hzero : cl.clients = 0) :
    s.conns c ≠ some (some k) := by
  intro hc
  have hnone : s.pointing k = 0 := by
    have hcount := h.count hk
    omega
  have hfalse := Census.count_eq_zero_iff.mp hnone c (List.mem_range.mpr (h.lt_fresh hc)) _ hc
  rw [beq_self_eq_true] at hfalse
  cases hfalse

theorem Exact.mono (h : s.Exact none) : s.Exact o :=
  { h with dead := fun hk hdead => .inr ((h.dead hk hdead).resolve_left fun heq => by cases heq) }

/-- A class is written over. -/
theorem Exact.put (h : s.Exact o) (hk : s.mem k = some cl) (hclients : cl'.clients = cl.clients)
    (hdead : cl'.dead = true → some k = o ∨ s.list.head? = some k ∨ 0 < cl'.clients) :
    (s.put k cl').Exact o := by
  have hsome := @Census.isSome_update _ _ s.mem k cl' _ (Option.isSome_of_eq_some hk)
  constructor
  · exact h.fault
  · exact h.nodup
  · exact fun j => (h.listed j).trans (Eq.to_iff (congrArg (· = true) (hsome j).symm))
  · intro j cl₁ hj
    rcases Census.update_eq_iff.mp hj with ⟨rfl, ⟨⟩⟩ | ⟨-, hj⟩
    · exact hclients.trans (h.count hk)
    · exact h.count hj
  · exact fun {c j} hc => (hsome j).trans (h.held hc)
  · intro j cl₁ hj
    rcases Census.update_eq_iff.mp hj with ⟨rfl, ⟨⟩⟩ | ⟨-, hj⟩
    · exact hdead
    · exact h.dead hj
  · intro n hn
    obtain ⟨hmem, hconns⟩ := h.fresh hn
    exact ⟨(Function.update_of_ne ((h.class_lt hk).trans_le hn).ne' _ _).trans hmem, hconns⟩

/-- What `destroy_class` leaves. -/
theorem Exact.destroyClass (h : s.Exact (some k)) (hk : s.mem k = some cl) :
    (s.destroyClass k).Exact none ∧ (s.destroyClass k).conns = s.conns ∧
      (s.destroyClass k).list.head? = s.list.head? ∧ (s.destroyClass k).acls = s.acls ∧
      ∀ j, j ≠ k → (s.destroyClass k).mem j = s.mem j := by
  rw [Classes.destroyClass]
  split
  · rename_i hhead
    refine ⟨{ h with dead := fun {j cl₁} hj hdead => .inr ?_ }, rfl, rfl, rfl, fun _ _ => rfl⟩
    rcases h.dead hj hdead with hjk | hor
    · exact .inl (hhead.trans hjk.symm)
    · exact hor
  · rename_i hhead
    rw [hk]
    dsimp only
    split
    · rename_i hclients
      have hpos : 0 < cl.clients := by
        have hcount := h.count hk
        omega
      refine ⟨?_, rfl, rfl, rfl, fun j hj => Function.update_of_ne hj _ _⟩
      have hput : (s.put k { cl with dead := true }).Exact (some k) :=
        h.put hk rfl fun _ => .inl rfl
      refine { hput with dead := fun {j cl₁} hj hdead => .inr ?_ }
      rcases Census.update_eq_iff.mp hj with ⟨rfl, ⟨⟩⟩ | ⟨hne, hj⟩
      · exact .inr hpos
      · exact (h.dead hj hdead).resolve_left fun heq => hne (Option.some.inj heq)
    · rename_i hclients
      have hzero : cl.clients = 0 := not_not.mp hclients
      have hhead' : (s.list.erase k).head? = s.list.head? := by
        cases hl : s.list with
        | nil => rfl
        | cons first rest =>
          have hne : first ≠ k := by
            rintro rfl
            exact hhead (by rw [hl]; rfl)
          rw [List.erase_cons_tail (by simpa using hne)]
          rfl
      refine ⟨?_, rfl, hhead', rfl, fun j hj => Function.update_of_ne hj _ _⟩
      constructor
      · exact h.fault
      · exact h.nodup.erase k
      · intro j
        refine (h.nodup.mem_erase_iff).trans ?_
        show _ ↔ (Function.update s.mem k none j).isSome
        by_cases hjk : j = k
        · rw [hjk, Function.update_self]
          exact iff_of_false (fun hand => hand.1 rfl) Bool.false_ne_true
        · rw [Function.update_of_ne hjk, ← h.listed]
          exact and_iff_right hjk
      · intro j cl₁ hj
        rcases Census.update_eq_iff.mp hj with ⟨-, ⟨⟩⟩ | ⟨-, hj⟩
        exact h.count hj
      · intro c j hc
        show (Function.update s.mem k none j).isSome
        rw [Function.update_of_ne]
        · exact h.held hc
        · rintro rfl
          exact h.not_held hk hzero hc
      · intro j cl₁ hj hdead
        rcases Census.update_eq_iff.mp hj with ⟨-, ⟨⟩⟩ | ⟨hne, hj⟩
        exact .inr (hhead' ▸ (h.dead hj hdead).resolve_left fun heq => hne (Option.some.inj heq))
      · intro n hn
        obtain ⟨hmem, hconns⟩ := h.fresh hn
        exact ⟨(Function.update_of_ne ((h.class_lt hk).trans_le hn).ne' _ _).trans hmem, hconns⟩

/-! ### Into a class and out of it -/

/-- A connection is taken out of a class or put into it, and the class counts it. -/
theorem Exact.move {dst : Option ℕ} (h : s.Exact none) (hc : s.conns c = some cls)
    (hk : s.mem k = some cl) (hfrom : ∀ j, cls = some j → j = k) (hto : ∀ j, dst = some j → j = k)
    (hclients : cl'.clients + (cls == some k).toNat = cl.clients + (dst == some k).toNat)
    (hdead : cl'.dead = true → some k = o ∨ s.list.head? = some k ∨ 0 < cl'.clients) :
    ((s.put k cl').setCls c dst).Exact o := by
  have hlt := h.lt_fresh hc
  have hsome := @Census.isSome_update _ _ s.mem k cl' _ (Option.isSome_of_eq_some hk)
  have hpointing := fun j =>
    @pointing_update s c dst _ ((s.put k cl').setCls c dst) rfl rfl hc hlt j
  constructor
  · exact h.fault
  · exact h.nodup
  · exact fun j => (h.listed j).trans (Eq.to_iff (congrArg (· = true) (hsome j).symm))
  · intro j cl₁ hj
    have hpoint := hpointing j
    rcases Census.update_eq_iff.mp hj with ⟨rfl, ⟨⟩⟩ | ⟨hne, hj⟩
    · have hcount := h.count hk
      omega
    · have hcount := h.count hj
      rw [beq_false_of_ne fun heq => hne (hfrom j heq),
        beq_false_of_ne fun heq => hne (hto j heq)] at hpoint
      rw [hcount]
      exact congrArg Nat.cast hpoint.symm
  · intro c' j hc'
    rcases Census.update_eq_iff.mp hc' with ⟨-, hdst⟩ | ⟨-, hc'⟩
    · obtain rfl := hto j (Option.some.inj hdst)
      exact (hsome j).trans (Option.isSome_of_eq_some hk)
    · exact (hsome j).trans (h.held hc')
  · intro j cl₁ hj
    rcases Census.update_eq_iff.mp hj with ⟨rfl, ⟨⟩⟩ | ⟨-, hj⟩
    · exact hdead
    · exact fun hdead => .inr ((h.dead hj hdead).resolve_left fun heq => by cases heq)
  · intro n hn
    obtain ⟨hmem, hconns⟩ := h.fresh hn
    exact ⟨(Function.update_of_ne ((h.class_lt hk).trans_le hn).ne' _ _).trans hmem,
      (Function.update_of_ne (hlt.trans_le hn).ne' _ _).trans hconns⟩

/-- `del_from_class` of a connection that has a class. -/
theorem Exact.delFromClass (h : s.Exact none) (hc : s.conns c = some (some k)) :
    (s.delFromClass c).Exact none ∧ Kept s (s.delFromClass c) ∧
      (s.delFromClass c).conns = Function.update s.conns c (some none) ∧
      ∀ j, j ≠ k → (s.delFromClass c).mem j = s.mem j := by
  obtain ⟨cl, hk⟩ := Option.isSome_iff_exists.mp (h.held hc)
  -- the class before `destroy_class` is asked
  have hexact : ((s.put k { cl with clients := cl.clients - 1 }).setCls c none).Exact
      (some k) := by
    refine h.move hc hk (fun j hj => (Option.some.inj hj).symm) (fun j hj => by cases hj) ?_
      fun _ => .inl rfl
    simp
  have hself : ((s.put k { cl with clients := cl.clients - 1 }).setCls c none).mem k =
      some { cl with clients := cl.clients - 1 } := Function.update_self ..
  rw [Classes.delFromClass, hc]
  dsimp only
  rw [hk]
  dsimp only
  split
  · rename_i hif
    obtain ⟨hdestroyed, hconns, hhead, hacls, hothers⟩ := hexact.destroyClass hself
    have hmem : ∀ j, j ≠ k → _ = s.mem j := fun j hj =>
      (hothers j hj).trans (Function.update_of_ne hj _ _)
    refine ⟨hdestroyed, ⟨hhead, hacls, fun j cl₁ hj hdead => ?_⟩, hconns, hmem⟩
    by_cases hjk : j = k
    · -- a dead class that goes is not the default class
      subst hjk
      obtain rfl := Option.some.inj (hk.symm.trans hj)
      obtain ⟨cl', hcl'⟩ := hdestroyed.head_mem (hhead.trans (hdead hif.2))
      refine ⟨cl', hcl', ?_⟩
      have hspared :
          ((s.put j { cl with clients := cl.clients - 1 }).setCls c none).destroyClass j =
          (s.put j { cl with clients := cl.clients - 1 }).setCls c none := if_pos (hdead hif.2)
      rw [hspared, hself] at hcl'
      obtain rfl := Option.some.inj hcl'
      rfl
    · exact ⟨cl₁, (hmem j hjk).trans hj, rfl⟩
  · rename_i hif
    refine ⟨{ hexact with dead := fun {j cl₁} hj hdead => .inr ?_ },
      ⟨rfl, rfl, fun j cl₁ hj hdead => ?_⟩, rfl, fun j hj => Function.update_of_ne hj _ _⟩
    · rcases hexact.dead hj hdead with hjk | hor
      · obtain rfl := Option.some.inj hjk
        obtain rfl := Option.some.inj (hself.symm.trans hj)
        have hcount := hexact.count hself
        have hne : cl.clients - 1 ≠ 0 := fun hzero => hif ⟨hzero, hdead⟩
        refine .inr ?_
        show 0 < cl.clients - 1
        change cl.clients - 1 = _ at hcount
        omega
      · exact hor
    · by_cases hjk : j = k
      · subst hjk
        obtain rfl := Option.some.inj (hk.symm.trans hj)
        exact ⟨_, hself, rfl⟩
      · exact ⟨cl₁, (Function.update_of_ne hjk _ _).trans hj, rfl⟩

/-- A connection that has no class is put into one. -/
theorem Exact.enter (h : s.Exact none) (hc : s.conns c = some none) (hk : s.mem k = some cl) :
    ((s.put k { cl with clients := cl.clients + 1 }).setCls c (some k)).Exact none := by
  refine h.move hc hk (fun j hj => by cases hj) (fun j hj => (Option.some.inj hj).symm) ?_
    fun _ => .inr (.inr ?_)
  · simp
  · have hcount := h.count hk
    show 0 < cl.clients + 1
    omega

/-- `add_to_class`, from another class or from none. -/
theorem Exact.addToClass (h : s.Exact none) (hc : s.conns c = some cls)
    (hk : (s.mem k).isSome) :
    (s.addToClass k c).Exact none ∧ Kept s (s.addToClass k c) ∧
      (s.addToClass k c).conns = Function.update s.conns c (some (some k)) := by
  rw [Classes.addToClass, hc]
  dsimp only
  by_cases hsame : cls = some k
  · subst hsame
    rw [if_pos rfl]
    exact ⟨h, .refl, by rw [← hc, Function.update_eq_self]⟩
  rw [if_neg hsame]
  -- the connection is out of its old class
  have hout : ∃ s', (if cls = none then s else s.delFromClass c) = s' ∧ s'.Exact none ∧
      Kept s s' ∧ s'.conns = Function.update s.conns c (some none) ∧ s'.mem k = s.mem k := by
    cases cls with
    | none => exact ⟨s, if_pos rfl, h, .refl, by rw [← hc, Function.update_eq_self], rfl⟩
    | some j =>
      obtain ⟨hexact, hkept, hconns, hmem⟩ := h.delFromClass hc
      exact ⟨_, if_neg (Option.some_ne_none j), hexact, hkept, hconns,
        hmem k fun heq => hsame (congrArg some heq.symm)⟩
  obtain ⟨s', heq, hexact, hkept, hconns, hmem⟩ := hout
  obtain ⟨cl, hk⟩ := Option.isSome_iff_exists.mp hk
  have hk' : s'.mem k = some cl := hmem.trans hk
  have hc' : s'.conns c = some none := by rw [hconns, Function.update_self]
  rw [heq, hk']
  dsimp only
  refine ⟨hexact.enter hc' hk', hkept.trans ⟨rfl, rfl, fun j cl₁ hj _ => ?_⟩, ?_⟩
  · by_cases hjk : j = k
    · subst hjk
      obtain rfl := Option.some.inj (hk'.symm.trans hj)
      exact ⟨_, Function.update_self .., rfl⟩
    · exact ⟨cl₁, (Function.update_of_ne hjk _ _).trans hj, rfl⟩
  · show Function.update s'.conns c _ = _
    rw [hconns, Function.update_idem]

/-- A connection whose class is not counted yet is made. -/
theorem Exact.newConn (h : s.Exact none) : (s.newConn none).Exact none := by
  have hmem : ∀ {j cl₁}, s.mem j = some cl₁ → cl₁.clients = (s.newConn none).pointing j := by
    intro j cl₁ hj
    rw [pointing_newConn]
    exact h.count hj
  refine { h with count := hmem, held := fun {c' j} hc' => ?_, fresh := fun {n} hn => ?_ }
  · rcases Census.update_eq_iff.mp hc' with ⟨-, ⟨⟩⟩ | ⟨-, hc'⟩
    exact h.held hc'
  · have hlt : s.fresh < n := hn
    obtain ⟨hclass, hconns⟩ := h.fresh hlt.le
    exact ⟨hclass, (Function.update_of_ne hlt.ne' _ _).trans hconns⟩

/-- A connection that has no class is freed. -/
theorem Exact.free (h : s.Exact none) (hc : s.conns c = some none) :
    ({ s with conns := Function.update s.conns c none } : Classes).Exact none := by
  have hpoint : ∀ j, ({ s with conns := Function.update s.conns c none } : Classes).pointing j =
      s.pointing j := by
    intro j
    have hupdate := @Census.total_update _ _ (fun cls => (cls == some j).toNat) s.conns _ c _ none
      List.nodup_range (List.mem_range.mpr (h.lt_fresh hc))
    rw [hc] at hupdate
    exact hupdate
  refine { h with count := fun {j cl₁} hj => ?_, held := fun {c' j} hc' => ?_,
                  fresh := fun {n} hn => ?_ }
  · rw [hpoint]
    exact h.count hj
  · rcases Census.update_eq_iff.mp hc' with ⟨-, ⟨⟩⟩ | ⟨-, hc'⟩
    exact h.held hc'
  · obtain ⟨hclass, hconns⟩ := h.fresh hn
    exact ⟨hclass, (Function.update_of_ne ((h.lt_fresh hc).trans_le hn).ne' _ _).trans hconns⟩

/-! ### The configuration -/

theorem Exact.expire (h : s.Exact none) (hk : (s.mem k).isSome) :
    (s.expire k).Exact none ∧ (s.expire k).conns = s.conns ∧
      ∀ j, j ≠ k → (s.expire k).mem j = s.mem j := by
  obtain ⟨cl, hk⟩ := Option.isSome_iff_exists.mp hk
  have hput : (s.put k { cl with dead := true }).Exact (some k) :=
    h.mono.put hk rfl fun _ => .inl rfl
  obtain ⟨hexact, hconns, -, -, hmem⟩ := hput.destroyClass (Function.update_self ..)
  rw [Classes.expire, hk]
  exact ⟨hexact, hconns, fun j hj => (hmem j hj).trans (Function.update_of_ne hj _ _)⟩

/-- The classes are marked dead one after the other. -/
theorem Exact.expireAll (h : s.Exact none) {l : List ℕ} (hl : l.Nodup)
    (hmem : ∀ k ∈ l, (s.mem k).isSome) :
    (l.foldl (fun s k => s.expire k) s).Exact none ∧
      (l.foldl (fun s k => s.expire k) s).conns = s.conns := by
  induction l generalizing s with
  | nil => exact ⟨h, rfl⟩
  | cons k l ih =>
    obtain ⟨hk, hl⟩ := List.nodup_cons.mp hl
    obtain ⟨hexact, hconns, hothers⟩ := h.expire (hmem k List.mem_cons_self)
    obtain ⟨hrest, hconns'⟩ := ih hexact hl fun j hj => by
      rw [hothers j (ne_of_mem_of_not_mem hj hk)]
      exact hmem j (List.mem_cons_of_mem _ hj)
    exact ⟨hrest, hconns'.trans hconns⟩

/-- A class that the configuration adds. -/
theorem Exact.create (h : s.Exact none) (name : Bytes) (hclients : cl.clients = 0)
    (hdead : cl.dead = false) : ((s.createClass name).put s.fresh cl).Exact none := by
  obtain ⟨hnone, hconn⟩ := h.fresh (le_refl s.fresh)
  have hnot : s.fresh ∉ s.list := fun hin => by
    have hsome := (h.listed _).mp hin
    rw [hnone] at hsome
    cases hsome
  have hperm : (s.createClass name).list.Perm (s.fresh :: s.list) := by
    cases hl : s.list with
    | nil => rw [createClass, hl]
    | cons first rest =>
      rw [createClass, hl]
      exact List.Perm.swap s.fresh first rest
  have hpoint : ∀ j, ((s.createClass name).put s.fresh cl).pointing j = s.pointing j := by
    intro j
    show Census.total _ s.conns (List.range (s.fresh + 1)) = _
    rw [List.range_succ, Census.total_concat, hconn]
    rfl
  have hmem : ∀ j, ((s.createClass name).put s.fresh cl).mem j =
      Function.update s.mem s.fresh (some cl) j := fun j =>
    congrFun (Function.update_idem ..) j
  constructor
  · exact h.fault
  · exact hperm.nodup_iff.mpr (List.nodup_cons.mpr ⟨hnot, h.nodup⟩)
  · intro j
    rw [hmem]
    refine hperm.mem_iff.trans (List.mem_cons.trans ?_)
    by_cases hjf : j = s.fresh
    · rw [hjf, Function.update_self]
      exact iff_of_true (.inl rfl) rfl
    · rw [Function.update_of_ne hjf, or_iff_right hjf]
      exact h.listed j
  · intro j cl₁ hj
    rw [hmem] at hj
    rw [hpoint]
    rcases Census.update_eq_iff.mp hj with ⟨rfl, ⟨⟩⟩ | ⟨-, hj⟩
    · have hzero : s.pointing s.fresh = 0 := by
        refine Census.count_eq_zero_iff.mpr fun c _ cls hc => beq_false_of_ne ?_
        rintro rfl
        have hsome := h.held hc
        rw [hnone] at hsome
        cases hsome
      rw [hclients, hzero]
      rfl
    · exact h.count hj
  · intro c j hc
    rw [hmem]
    by_cases hjf : j = s.fresh
    · rw [hjf, Function.update_self]
      rfl
    · rw [Function.update_of_ne hjf]
      exact h.held hc
  · intro j cl₁ hj hd
    rw [hmem] at hj
    rcases Census.update_eq_iff.mp hj with ⟨rfl, ⟨⟩⟩ | ⟨-, hj⟩
    · rw [hdead] at hd
      cases hd
    · refine .inr (((h.dead hj hd).resolve_left fun heq => by cases heq).imp_left fun hhead => ?_)
      show (s.createClass name).list.head? = some j
      rw [createClass]
      cases hl : s.list with
      | nil =>
        rw [hl] at hhead
        cases hhead
      | cons first rest =>
        rw [hl] at hhead
        exact hhead
  · intro n hn
    have hlt : s.fresh < n := hn
    obtain ⟨hclass, hconns⟩ := h.fresh hlt.le
    exact ⟨(hmem n).trans ((Function.update_of_ne hlt.ne' _ _).trans hclass), hconns⟩

theorem Exact.define (h : s.Exact none) (name : Bytes) (max : ℤ) :
    (s.define name max).Exact none ∧ (s.define name max).conns = s.conns := by
  rw [Classes.define]
  cases hfind : s.findClass name with
  | none => exact ⟨h.create name rfl rfl, rfl⟩
  | some k =>
    obtain ⟨cl, hk⟩ := h.findClass_mem hfind
    dsimp only
    rw [hk]
    refine ⟨h.put hk rfl fun hdead => ?_, rfl⟩
    cases hdead

theorem Exact.parseClasses (h : s.Exact none) (classes : List (Bytes × ℤ)) :
    (s.parseClasses classes).Exact none ∧ (s.parseClasses classes).conns = s.conns := by
  obtain ⟨hexact, hconns⟩ := h.expireAll h.nodup fun k hk => (h.listed k).mp hk
  rw [Classes.parseClasses, ← hconns]
  generalize s.list.foldl (fun s k => s.expire k) s = s' at hexact
  clear hconns
  induction classes generalizing s' with
  | nil => exact ⟨hexact, rfl⟩
  | cons cl classes ih =>
    obtain ⟨hdefined, hconns⟩ := hexact.define cl.1 cl.2
    obtain ⟨hrest, hconns'⟩ := ih _ hdefined
    exact ⟨hrest, hconns'.trans hconns⟩

/-- An ACL has the class it asks for, or the default class. -/
theorem Exact.aclClass (h : s.Exact none) (hl : s.list ≠ []) (name : Option Bytes) :
    ∃ k cl, s.aclClass name = some k ∧ s.mem k = some cl ∧
      (cl.dead = true → s.list.head? = some k) := by
  obtain ⟨first, hfirst⟩ : ∃ first, s.list.head? = some first :=
    Option.ne_none_iff_exists'.mp fun hnone => hl (List.head?_eq_none_iff.mp hnone)
  obtain ⟨clf, hclf⟩ := h.head_mem hfirst
  rw [Classes.aclClass]
  cases hfind : name.bind s.findClass with
  | none => exact ⟨first, clf, hfirst, hclf, fun _ => hfirst⟩
  | some k =>
    obtain ⟨n, -, hn⟩ := Option.bind_eq_some_iff.mp hfind
    obtain ⟨cl, hk⟩ := h.findClass_mem hn
    dsimp only
    rw [hk, Option.any_some]
    split
    · exact ⟨first, clf, hfirst, hclf, fun _ => hfirst⟩
    · rename_i hdead
      exact ⟨k, cl, rfl, hk, fun hd => absurd hd hdead⟩

/-! ### Steps -/

theorem settled_start : start.Settled := by
  constructor
  · constructor <;> simp [start]
  · simp [start]
  · simp [start]

/-- A connection is put into a class. -/
theorem Settled.addToClass (h : s.Settled) (hc : (s.conns c).isSome) (hk : (s.mem k).isSome) :
    (s.addToClass k c).Settled := by
  obtain ⟨cls, hc⟩ := Option.isSome_iff_exists.mp hc
  obtain ⟨hexact, hkept, hconns⟩ := h.toExact.addToClass hc hk
  refine ⟨hexact, fun c' hnone => ?_, fun o ho hl => ?_⟩
  · rw [hconns] at hnone
    rcases Census.update_eq_iff.mp hnone with ⟨-, ⟨⟩⟩ | ⟨-, hnone⟩
    exact h.classed c' hnone
  · rw [hkept.acls] at ho
    have hl' : s.list ≠ [] := fun hnil => hl (List.head?_eq_none_iff.mp
      (hkept.head.trans (List.head?_eq_none_iff.mpr hnil)))
    obtain ⟨j, cl, rfl, hj, hdead⟩ := h.acls o ho hl'
    obtain ⟨cl', hj', hdead'⟩ := hkept.mem j cl hj hdead
    exact ⟨j, cl', rfl, hj', fun hd => hkept.head.trans (hdead (hdead' ▸ hd))⟩

/-- Where there is a connection there is a class. -/
theorem Settled.head (h : s.Settled) (hc : (s.conns c).isSome) :
    ∃ k, s.list.head? = some k ∧ (s.mem k).isSome := by
  obtain ⟨cls, hc⟩ := Option.isSome_iff_exists.mp hc
  cases cls with
  | none => exact absurd hc (h.classed c)
  | some j =>
    obtain ⟨k, hk⟩ : ∃ k, s.list.head? = some k :=
      Option.ne_none_iff_exists'.mp fun hnone => by
        have hin := (h.listed j).mpr (h.held hc)
        rw [List.head?_eq_none_iff.mp hnone] at hin
        cases hin
    exact ⟨k, hk, (h.listed k).mp (List.mem_of_mem_head? hk)⟩

theorem Settled.aclAdmit (h : s.Settled) (hc : (s.conns c).isSome) (hk : (s.mem k).isSome)
    (register : Bool) : (s.aclAdmit c (some k) register).Settled := by
  obtain ⟨cl, hmem⟩ := Option.isSome_iff_exists.mp hk
  rw [Classes.aclAdmit, Option.bind_some, hmem]
  dsimp only
  split
  · exact h.addToClass hc hk
  · exact h

theorem Settled.accept (h : s.Settled) (hk : s.list.head? = some k) :
    ((s.newConn none).addTo s.fresh (some k)).Settled := by
  have hc : (s.newConn none).conns s.fresh = some none := Function.update_self ..
  have hmem : ((s.newConn none).mem k).isSome := (h.listed k).mp (List.mem_of_mem_head? hk)
  obtain ⟨hexact, hkept, hconns⟩ := h.toExact.newConn.addToClass hc hmem
  refine ⟨hexact, fun c' hnone => ?_, fun o ho hl => ?_⟩
  · rw [addTo, hconns] at hnone
    rcases Census.update_eq_iff.mp hnone with ⟨-, ⟨⟩⟩ | ⟨hne, hnone⟩
    exact h.classed c' ((Function.update_of_ne hne _ _).symm.trans hnone)
  · rw [addTo, hkept.acls] at ho
    have hl' : s.list ≠ [] := by
      rintro hnil
      rw [hnil] at hk
      cases hk
    obtain ⟨j, cl, rfl, hj, hdead⟩ := h.acls o ho hl'
    obtain ⟨cl', hj', hdead'⟩ := hkept.mem j cl hj hdead
    exact ⟨j, cl', rfl, hj', fun hd => hkept.head.trans (hdead (hdead' ▸ hd))⟩

theorem Settled.destroy (h : s.Settled) (hc : (s.conns c).isSome) :
    ({ s.delFromClass c with
      conns := Function.update (s.delFromClass c).conns c none } : Classes).Settled := by
  obtain ⟨cls, hc⟩ := Option.isSome_iff_exists.mp hc
  cases cls with
  | none => exact absurd hc (h.classed c)
  | some k =>
    obtain ⟨hexact, hkept, hconns, -⟩ := h.toExact.delFromClass hc
    have hout : (s.delFromClass c).conns c = some none := by rw [hconns, Function.update_self]
    refine ⟨hexact.free hout, fun c' hnone => ?_, fun o ho hl => ?_⟩
    · rcases Census.update_eq_iff.mp hnone with ⟨-, ⟨⟩⟩ | ⟨hne, hnone⟩
      rw [hconns, Function.update_of_ne hne] at hnone
      exact h.classed c' hnone
    · have ho' : o ∈ s.acls := hkept.acls ▸ ho
      have hl' : s.list ≠ [] := fun hnil => hl (List.head?_eq_none_iff.mp
        (hkept.head.trans (List.head?_eq_none_iff.mpr hnil)))
      obtain ⟨j, cl, rfl, hj, hdead⟩ := h.acls o ho' hl'
      obtain ⟨cl', hj', hdead'⟩ := hkept.mem j cl hj hdead
      exact ⟨j, cl', rfl, hj', fun hd => hkept.head.trans (hdead (hdead' ▸ hd))⟩

theorem Settled.reload (h : s.Settled) (classes : List (Bytes × ℤ)) (acls : List (Option Bytes)) :
    (s.reload classes acls).Settled := by
  obtain ⟨hexact, hconns⟩ := h.toExact.parseClasses classes
  refine ⟨{ hexact with }, fun c hnone => h.classed c (hconns ▸ hnone), fun o ho hl => ?_⟩
  obtain ⟨name, -, rfl⟩ := List.mem_map.mp ho
  exact hexact.aclClass hl name

/-- Every call but the making of a connection by `server_connect`. -/
theorem Settled.step {a : ClassAction} (h : s.Settled) (ha : a ≠ .connect)
    (hstep : Classes.step s a = some s') : s'.Settled := by
  cases a with
  | accept =>
    obtain ⟨hl, ⟨⟩⟩ := Option.ite_none_left_eq_some.mp hstep
    obtain ⟨k, hk⟩ : ∃ k, s.list.head? = some k :=
      Option.ne_none_iff_exists'.mp fun hnone => hl (List.head?_eq_none_iff.mp hnone)
    rw [hk]
    exact h.accept hk
  | connect => exact absurd rfl ha
  | introduce c name =>
    obtain ⟨hc, ⟨⟩⟩ := Option.ite_none_right_eq_some.mp hstep
    obtain ⟨k, hk, hmem⟩ : ∃ k, s.serverClass name = some k ∧ (s.mem k).isSome := by
      rw [serverClass]
      cases hfind : name.bind s.findClass with
      | none => exact h.head hc
      | some k =>
        obtain ⟨n, -, hn⟩ := Option.bind_eq_some_iff.mp hfind
        exact ⟨k, rfl, Option.isSome_iff_exists.mpr (h.findClass_mem hn)⟩
    rw [hk]
    exact h.addToClass hc hmem
  | oper c name =>
    obtain ⟨hc, ⟨⟩⟩ := Option.ite_none_right_eq_some.mp hstep
    cases hfind : s.findClass name with
    | none => exact h
    | some k => exact h.addToClass hc (Option.isSome_iff_exists.mpr (h.findClass_mem hfind))
  | welcome c acl register =>
    cases acl with
    | none =>
      obtain ⟨hc, ⟨⟩⟩ := Option.ite_none_right_eq_some.mp hstep
      obtain ⟨k, hk, hmem⟩ := h.head hc
      rw [hk]
      exact h.aclAdmit hc hmem register
    | some i =>
      obtain ⟨hc, hmap⟩ := Option.ite_none_right_eq_some.mp hstep
      obtain ⟨o, ho, rfl⟩ := Option.map_eq_some_iff.mp hmap
      obtain ⟨first, hfirst, -⟩ := h.head hc
      have hl : s.list ≠ [] := by
        rintro hnil
        rw [hnil] at hfirst
        cases hfirst
      obtain ⟨k, cl, rfl, hk, -⟩ := h.acls o (List.mem_of_getElem? ho) hl
      exact h.aclAdmit hc (Option.isSome_iff_exists.mpr ⟨cl, hk⟩) register
  | destroy c =>
    obtain ⟨hc, ⟨⟩⟩ := Option.ite_none_right_eq_some.mp hstep
    exact h.destroy hc
  | reload classes acls =>
    obtain rfl := Option.some.inj hstep
    exact h.reload classes acls

/-- A connection that `server_connect` makes is not counted in the class it points at. -/
theorem Settled.connect_short (h : s.Settled) (hstep : Classes.step s .connect = some s') :
    ∃ k cl, s'.list.head? = some k ∧ s'.mem k = some cl ∧
      (s'.pointing k : ℤ) = cl.clients + 1 := by
  obtain ⟨hl, ⟨⟩⟩ := Option.ite_none_left_eq_some.mp hstep
  obtain ⟨k, hk⟩ : ∃ k, s.list.head? = some k :=
    Option.ne_none_iff_exists'.mp fun hnone => hl (List.head?_eq_none_iff.mp hnone)
  obtain ⟨cl, hcl⟩ := h.head_mem hk
  refine ⟨k, cl, hk, hcl, ?_⟩
  rw [pointing_newConn, hk, beq_self_eq_true, h.count hcl]
  rfl

/-! ### Whole runs -/

/-- In every run in which `server_connect` makes no connection, the clients of every class are the
connections that point at it, no connection points at a class that was freed, and a class that is
dead has connections, unless it is the default class. -/
theorem settled_of_run (as : List ClassAction) (s : Classes) (has : .connect ∉ as)
    (hrun : Run.run step start as = some s) : s.Settled := by
  suffices ∀ s₀ : Classes, s₀.Settled → Run.run step s₀ as = some s → s.Settled from
    this start settled_start hrun
  clear hrun
  induction as with
  | nil =>
    intro s₀ h₀ hrun
    obtain rfl := Option.some.inj hrun
    exact h₀
  | cons a as ih =>
    intro s₀ h₀ hrun
    obtain ⟨s₁, hstep, hrest⟩ := Run.run_cons_eq_some.mp hrun
    rw [List.mem_cons, not_or] at has
    exact ih has.2 s₁ (h₀.step (Ne.symm has.1) hstep) hrest

end

/-- Two classes, a connection that an ACL puts into the second, a configuration without it, and the
end of the connection. -/
def oneVisitor : List ClassAction :=
  [.reload [(bytes "users", 10), (bytes "friends", 5)] [some (bytes "FRIENDS")], .accept,
   .welcome 2 (some 0) true, .reload [(bytes "users", 10)] [none], .destroy 2]

theorem settled_of_run_oneVisitor :
    ∃ s, Run.run step start oneVisitor = some s ∧ s.Settled := by
  have hsome : (Run.run step start oneVisitor).isSome := by decide +kernel
  obtain ⟨s, hrun⟩ := Option.isSome_iff_exists.mp hsome
  exact ⟨s, hrun, settled_of_run oneVisitor s
    (by simp only [oneVisitor, List.mem_cons, reduceCtorEq, List.not_mem_nil, or_self,
      not_false_eq_true]) hrun⟩

/-- The default class stays when the configuration drops it and its last connection leaves. -/
theorem classes_fails : ¬ ∀ (as : List ClassAction) (s : Classes), Run.run step start as = some s →
    ∀ k cl, s.mem k = some cl → cl.dead = true → 0 < cl.clients := by
  intro hall
  have hvals : (Run.run step start [.reload [(bytes "users", 10)] [], .accept,
      .reload [(bytes "friends", 5)] [], .destroy 1]).bind
        (fun s => (s.mem 0).map fun cl => (cl.dead, cl.clients)) = some (true, 0) := by
    decide +kernel
  obtain ⟨s, hrun, hs⟩ := Option.bind_eq_some_iff.mp hvals
  obtain ⟨cl, hcl, hpair⟩ := Option.map_eq_some_iff.mp hs
  obtain ⟨hdead, hclients⟩ := Prod.mk.inj hpair
  have hpos := hall _ s hrun 0 cl hcl hdead
  rw [hclients] at hpos
  exact absurd hpos (by decide)

end Classes

end Ithildin
