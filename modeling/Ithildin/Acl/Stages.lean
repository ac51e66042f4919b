import Ithildin.Acl.Hash

/-!
# The three stages of access control

* `Acl`, `Class`, `AclConnection`: what the hooks of `acl.c` read;
* `aclStage1Hook`, `aclStage2Hook`, `aclStage3Hook`: the hooks.

Each hook is its loop over the list of its stage; the loop is told which entries it does not skip,
so that it can be compared with the loop that skips none.
-/

namespace Ithildin

/-- `ACL_DENY` and `ACL_ALLOW`. -/
inductive Access
  | deny
  | allow
  deriving DecidableEq

/-- `struct class`: its maximum and how many clients it has. -/
structure Class where
  max : ℤ
  clients : ℤ

/-- `acl_t`. -/
structure Acl where
  access : Access
  user : Bytes
  host : Bytes
  hash : UInt32
  cls : ℕ
  info : Option Bytes
  pass : Option Bytes
  reason : Option Bytes
  redirect : Option (Bytes × ℤ)
  skipDns : Bool
  skipIdent : Bool
  deriving DecidableEq

/-- `connection_t` and its client, with the address of its socket in text; `cliUser` and `info` are
those of the client that registers. -/
structure AclConnection where
  host : Bytes
  ip : Bytes
  user : Bytes
  pass : Option Bytes
  cliUser : Bytes
  info : Bytes

/-- What a hook does: the reason it returns, if it refuses; the class it puts the connection in; the
redirect it sends; the look-ups it marks as done. -/
structure Verdict where
  reason : Option Bytes
  joined : Option ℕ
  redirect : Option (Bytes × ℤ)
  skipDns : Bool
  skipIdent : Bool
  deriving DecidableEq

/-- The connection is let in, into the class if one is given. -/
def Verdict.accept (joined : Option ℕ) : Verdict := ⟨none, joined, none, false, false⟩

/-- The connection is refused. -/
def Verdict.refuse (reason : Bytes) (redirect : Option (Bytes × ℤ)) : Verdict :=
  ⟨some reason, none, redirect, false, false⟩

/-- The entries a loop does not skip: those with the default key or with one of the connection's. -/
def visible (keys : List UInt32) (ap : Acl) : Bool :=
  ap.hash == ACL_DEFAULT_HASH || keys.contains ap.hash

/-! ### Stage 1: a new connection -/

/-- `ipmatch(ap->host, cp->host) || hostmatch(ap->host, cp->host)`. -/
def Acl.matchesHost (ap : Acl) (host : Bytes) : Bool :=
  ipmatch ap.host host || hostmatch ap.host host

/-- The loop of `acl_stage1_hook`. -/
def aclStage1Loop (seen : Acl → Bool) (cp : AclConnection) : List Acl → Verdict
  | [] => .accept none
  | ap :: l =>
      if ¬ seen ap then aclStage1Loop seen cp l
      else if ap.matchesHost cp.host then
        match ap.access with
        | .deny => .refuse (ap.reason.getD []) none
        | .allow => { Verdict.accept none with skipDns := ap.skipDns, skipIdent := ap.skipIdent }
      else aclStage1Loop seen cp l

/-- `acl_stage1_hook`. -/
def aclStage1Hook (okay : HostMap) (cp : AclConnection) (l : List Acl) : Verdict :=
  aclStage1Loop (visible [getAclHash okay cp.host]) cp l

/-! ### Stage 2: the host and the ident are known -/

/-- `*ap->user ? hostmatch(ap->user, user) : 1`. -/
def Acl.matchesUser (ap : Acl) (user : Bytes) : Bool :=
  if ap.user = [] then true else hostmatch ap.user user

/-- `hostmatch(ap->host, cp->host) || hostmatch(ap->host, ip) || ipmatch(ap->host, ip)`. -/
def Acl.matchesAddress (ap : Acl) (cp : AclConnection) : Bool :=
  hostmatch ap.host cp.host || hostmatch ap.host cp.ip || ipmatch ap.host cp.ip

/-- `ep != NULL`: the class changes only when the hook is called for its event. -/
def joins (ep : Bool) (cls : ℕ) : Option ℕ := if ep then some cls else none

/-- The loop of `acl_stage2_hook`. -/
def aclStage2Loop (seen : Acl → Bool) (cls : ℕ → Class) (ep : Bool) (cp : AclConnection) :
    List Acl → Verdict
  | [] => .accept none
  | ap :: l =>
      if ¬ seen ap then aclStage2Loop seen cls ep cp l
      else if ap.matchesUser cp.user ∧ ap.matchesAddress cp then
        match ap.access with
        | .deny => .refuse (ap.reason.getD []) none
        | .allow =>
            if (cls ap.cls).clients < (cls ap.cls).max then .accept (joins ep ap.cls)
            else aclStage2Loop seen cls ep cp l
      else aclStage2Loop seen cls ep cp l

/-- `acl_stage2_hook`. -/
def aclStage2Hook (okay : HostMap) (cls : ℕ → Class) (ep : Bool) (cp : AclConnection)
    (l : List Acl) : Verdict :=
  aclStage2Loop (visible [getAclHash okay cp.host, getAclHash okay cp.ip]) cls ep cp l

/-! ### Stage 3: a client registers -/

/-- `"You are not authorised to use this server."`. -/
def notAuthorised : Bytes := bytes "You are not authorised to use this server."

/-- `"No more clients allowed in your connection class (the server is full)"`. -/
def classFull : Bytes :=
  bytes "No more clients allowed in your connection class (the server is full)"

/-- `!(ap->pass != NULL && cp->pass != NULL && strcmp(ap->pass, cp->pass))`. -/
def Acl.passes (ap : Acl) (cp : AclConnection) : Bool :=
  match ap.pass, cp.pass with
  | some pass, some given => pass == given
  | _, _ => true

/-- `!(ap->info != NULL && !match(ap->info, cp->cli->info))`. -/
def Acl.matchesInfo (ap : Acl) (cp : AclConnection) : Bool :=
  ap.info.all fun info => stringMatch info cp.info

/-- `ap->cls->max < 1 || ap->cls->max > ap->cls->clients`. -/
def Class.hasRoom (c : Class) : Bool := c.max < 1 || c.clients < c.max

/-- The loop of `acl_stage3_hook` over a list that was not empty, and its end; `ret` is what full
classes have left behind. -/
def aclStage3Loop (seen : Acl → Bool) (cls : ℕ → Class) (ep : Bool) (cp : AclConnection) :
    Option Bytes → List Acl → Verdict
  | ret, [] => .refuse (ret.getD notAuthorised) none
  | ret, ap :: l =>
      if ¬ seen ap then aclStage3Loop seen cls ep cp ret l
      else if ¬ ap.passes cp then aclStage3Loop seen cls ep cp ret l
      else if ¬ ap.matchesInfo cp then aclStage3Loop seen cls ep cp ret l
      else if ap.matchesUser cp.cliUser ∧ ap.matchesAddress cp then
        match ap.access with
        | .deny => .refuse ((ret.or ap.reason).getD notAuthorised) ap.redirect
        | .allow =>
            if (cls ap.cls).hasRoom then .accept (joins ep ap.cls)
            else aclStage3Loop seen cls ep cp (some classFull) l
      else aclStage3Loop seen cls ep cp ret l

/-- `acl_stage3_hook`: an empty list admits everyone. -/
def aclStage3Hook (okay : HostMap) (cls : ℕ → Class) (ep : Bool) (cp : AclConnection)
    (l : List Acl) : Verdict :=
  if l = [] then .accept none
  else aclStage3Loop (visible [getAclHash okay cp.host, getAclHash okay cp.ip]) cls ep cp none l

end Ithildin
