import Ithildin.Address
import Ithildin.Printf

/-!
# WHO

`who.c`: the options of a query are read into `who_opts`, and the clients that they describe are
listed. The macro for a wrong option ends `who_parse_options` with `COMMAND_WEIGHT_MEDIUM`, which
its caller takes for success.

* `whoParseOptions`, `whoCheck`, `whoSearch`, `whoCommand`: the functions;
* `whoCommand_ends`: a query ends once, and once more for a wrong option, behind which the
  search goes on;
* `WhoCond`, `spell`: conditions, and the query that asks for them;
* `whoCommand_spell`: such a query lists the clients that meet all of them, up to the limit.

The weight of the command and the text of the help are left out.
-/

namespace Ithildin

namespace Who

/-- What the command reads: the clients, channels and servers with their data, what the issuer may
see, and `find_client`, `find_server`, `find_channel` and `check_channame`. -/
structure WhoNet where
  clients : List ℕ
  registered : ℕ → Bool
  nick : ℕ → Bytes
  user : ℕ → Bytes
  host : ℕ → Bytes
  orighost : ℕ → Bytes
  info : ℕ → Bytes
  ip : ℕ → Bytes
  modes : ℕ → UInt64
  away : ℕ → Bool
  server : ℕ → ℕ
  chans : ℕ → List ℕ
  serverName : ℕ → Bytes
  hops : ℕ → ℕ
  hidden : ℕ → Bool
  chanName : ℕ → Bytes
  users : ℕ → List ℕ
  prefixes : ℕ → ℕ → Bytes
  modeMask : UInt8 → Option UInt64
  findClient : Bytes → Option ℕ
  findServer : Bytes → Option ℕ
  findChannel : Bytes → Option ℕ
  checkChanname : Bytes → Bool
  /-- `can_can_see_channel`. -/
  canSee : ℕ → ℕ → ℤ
  /-- `who-see-invisible`. -/
  whoInvis : ℕ → Bool
  /-- `who-reply-limit`. -/
  whoLimit : ℕ → ℤ
  /-- `priv_srch` and `priv_shs`. -/
  seeHosts : ℕ → Bool
  seeServers : ℕ → Bool

/-- `who_opts`. -/
structure WhoOpts where
  usermodes : UInt64
  nick : Option Bytes
  user : Option Bytes
  host : Option Bytes
  gcos : Option Bytes
  ip : Option Bytes
  channel : Option ℕ
  server : Option ℕ
  umodeFlag : Bool
  checkUmode : Bool
  nickFlag : Bool
  userFlag : Bool
  hostFlag : Bool
  gcosFlag : Bool
  ipFlag : Bool
  serverFlag : Bool
  awayFlag : Bool
  checkAway : Bool
  showChan : Bool
  searchChan : Bool
  deriving DecidableEq

/-- `memset(&who_opts, 0, sizeof(who_opts))`. -/
def noOpts : WhoOpts where
  usermodes := 0
  nick := none
  user := none
  host := none
  gcos := none
  ip := none
  channel := none
  server := none
  umodeFlag := false
  checkUmode := false
  nickFlag := false
  userFlag := false
  hostFlag := false
  gcosFlag := false
  ipFlag := false
  serverFlag := false
  awayFlag := false
  checkAway := false
  showChan := false
  searchChan := false

/-- `RPL_WHOREPLY`. -/
structure WhoReply where
  chan : Bytes
  user : Bytes
  host : Bytes
  server : Bytes
  nick : Bytes
  status : Bytes
  hops : ℕ
  info : Bytes
  deriving DecidableEq

/-- What is sent to the issuer. -/
inductive WhoLine
  /-- `RPL_COMMANDSYNTAX`, for all of `who_usage`. -/
  | usage
  /-- `ERR_WHOSYNTAX`. -/
  | syntaxError
  /-- `ERR_NOSUCHCHANNEL`. -/
  | noSuchChannel (arg : Bytes)
  /-- `ERR_NOSUCHSERVER`. -/
  | noSuchServer (arg : Bytes)
  /-- The numeric that `can_can_see_channel` gives. -/
  | cannotSee (numeric : ℤ) (chan : Bytes)
  /-- `ERR_WHOLIMEXCEED`. -/
  | limit (max : ℤ)
  | reply (r : WhoReply)
  /-- `RPL_ENDOFWHO`. -/
  | endOf (arg : Bytes)
  deriving DecidableEq

section

variable (n : WhoNet) (cli : ℕ)

/-- `ircd.umodes.modes[c].mask`. -/
def WhoNet.maskOf (c : UInt8) : UInt64 := (n.modeMask c).getD 0

/-- `OPER`. -/
def WhoNet.oper (k : ℕ) : Bool := n.modes k &&& n.maskOf 111 != 0

/-- `INVIS`. -/
def WhoNet.invis (k : ℕ) : Bool := n.modes k &&& n.maskOf 105 != 0

/-- `onchannel`. -/
def WhoNet.onchannel (k c : ℕ) : Bool := (n.chans k).contains c

/-- `CAN_SEE_REAL_HOST`. -/
def WhoNet.canSeeRealHost (k target : ℕ) : Bool := k == target || n.seeHosts k

/-! ### The options -/

/-- What a letter comes to. -/
inductive WhoStep
  | go (o : WhoOpts) (args : List Bytes)
  /-- `return 0`. -/
  | stop (lines : List WhoLine)
  /-- `WHO_PARSE_SERROR`. -/
  | wrong

/-- A letter with a text. -/
def textLetter (allowed : Bool) (set : Bytes → WhoOpts) : List Bytes → WhoStep
  | [] => .wrong
  | arg :: args => if allowed then .go (set arg) args else .wrong

/-- `'c'`: a channel, which can only be asked for. -/
def channelLetter (change : Bool) (o : WhoOpts) : List Bytes → WhoStep
  | [] => .wrong
  | arg :: args =>
      if change = false then .wrong
      else
        match n.findChannel arg with
        | none => .stop [.noSuchChannel arg, .endOf arg]
        | some chan => .go { o with channel := some chan } args

/-- `'s'`: a server. -/
def serverLetter (change : Bool) (o : WhoOpts) : List Bytes → WhoStep
  | [] => .wrong
  | arg :: args =>
      match n.findServer arg with
      | none => .stop [.noSuchServer arg, .endOf arg]
      | some srv => .go { o with server := some srv, serverFlag := change } args

/-- The modes that a text asks for; others than `o` are for operators only. -/
def askedModes (usermodes : UInt64) (s : Bytes) : UInt64 :=
  let usermodes := s.foldl (fun u c => u ||| n.maskOf c) usermodes
  if n.oper cli then usermodes else usermodes &&& n.maskOf 111

/-- A round of the loop over the flags, behind `'+'` and `'-'`. -/
def whoLetter (change : Bool) (o : WhoOpts) (args : List Bytes) (c : UInt8) : WhoStep :=
  if c = 97 then .go { o with awayFlag := change, checkAway := true } args
  else if c = 99 then channelLetter n change o args
  else if c = 67 then .go { o with showChan := change } args
  else if c = 103 then
    textLetter (n.oper cli) (fun arg => { o with gcos := some arg, gcosFlag := change }) args
  else if c = 104 then
    textLetter true (fun arg => { o with host := some arg, hostFlag := change }) args
  else if c = 105 then
    textLetter (n.oper cli) (fun arg => { o with ip := some arg, ipFlag := change }) args
  else if c = 109 then
    textLetter true (fun arg =>
      let usermodes := askedModes n cli o.usermodes arg
      if usermodes = 0 then { o with usermodes := 0 }
      else { o with usermodes := usermodes, checkUmode := true, umodeFlag := change }) args
  else if c = 77 then .go { o with searchChan := change } args
  else if c = 110 then
    textLetter true (fun arg => { o with nick := some arg, nickFlag := change }) args
  else if c = 115 then serverLetter n change o args
  else if c = 117 then
    textLetter true (fun arg => { o with user := some arg, userFlag := change }) args
  else .go o args

/-- What the loop comes to. -/
inductive WhoParse
  | done (o : WhoOpts) (args : List Bytes)
  | stop (lines : List WhoLine)
  /-- With the options that were read so far. -/
  | wrong (o : WhoOpts)

/-- The loop over the flags. -/
def whoFlags : Bytes → Bool → WhoOpts → List Bytes → WhoParse
  | [], _, o, args => .done o args
  | c :: flags, change, o, args =>
      if c = plusSign then whoFlags flags true o args
      else if c = minusSign then whoFlags flags false o args
      else
        match whoLetter n cli change o args c with
        | .go o args => whoFlags flags change o args
        | .stop lines => .stop lines
        | .wrong => .wrong o

/-- Whether there is more to go by than a name or a channel. -/
def WhoOpts.narrow (o : WhoOpts) : Bool :=
  o.checkAway || o.gcos.isSome || o.host.isSome || o.checkUmode || o.server.isSome || o.user.isSome

/-- Whether the options make sense. -/
def whoSensible (o : WhoOpts) (args : List Bytes) : WhoParse :=
  if o.searchChan && !o.narrow then
    match args with
    | [] => .wrong o
    | arg :: args =>
        if o.channel.isSome || o.nick.isSome || n.checkChanname arg then .wrong o
        else if dot ∈ arg then .done { o with host := some arg, hostFlag := true } args
        else .wrong o
  else if o.showChan && !(o.narrow || o.nick.isSome || o.ip.isSome || o.channel.isSome) then
    match args with
    | [] => .wrong o
    | arg :: args =>
        if dot ∈ arg then .done { o with host := some arg, hostFlag := true } args
        else .done { o with nick := some arg, nickFlag := true } args
  else .done o args

/-- The options, what is sent, and whether the value that is returned is not 0. -/
def WhoParse.result (flags : Bytes) : WhoParse → WhoOpts × List WhoLine × Bool
  | .done o _ => (o, [], true)
  | .stop lines => (noOpts, lines, false)
  | .wrong o => (o, [.syntaxError, .endOf flags], true)

/-- `who_parse_options`. -/
def whoParseOptions : List Bytes → WhoOpts × List WhoLine × Bool
  | [] => (noOpts, [.usage, .endOf [question]], false)
  | flags :: args =>
      if flags.head? = some question then (noOpts, [.usage, .endOf [question]], false)
      else if flags = [48] then
        let opers := (args.head?).any fun arg => sameCase arg [111]
        ({ noOpts with
            checkUmode := opers
            umodeFlag := opers
            usermodes := if opers then n.maskOf 111 else 0
            host := some [star]
            hostFlag := true }, [], true)
      else if flags.head? ≠ some plusSign ∧ flags.head? ≠ some minusSign then
        if n.checkChanname flags then
          match n.findChannel flags with
          | none => (noOpts, [.noSuchChannel flags, .endOf flags], false)
          | some chan => ({ noOpts with channel := some chan }, [], true)
        else if dot ∈ flags then ({ noOpts with host := some flags, hostFlag := true }, [], true)
        else ({ noOpts with nick := some flags, nickFlag := true }, [], true)
      else
        match whoFlags n cli flags true noOpts args with
        | .done o args => (whoSensible n o args).result flags
        | p => p.result flags

/-! ### The search -/

/-- A test that is to come out as its flag says. -/
def agrees (flag found : Bool) : Bool := flag == found

/-- `who_check`. -/
def whoCheck (o : WhoOpts) (cp : ℕ) (showall : Bool) : Bool :=
  (!n.invis cp || showall) &&
  (!o.checkUmode || agrees o.umodeFlag (n.modes cp &&& o.usermodes == o.usermodes)) &&
  (!o.checkAway || agrees o.awayFlag (n.away cp)) &&
  (o.server.all fun srv => agrees o.serverFlag (n.server cp == srv)) &&
  (o.user.all fun mask => agrees o.userFlag (stringMatch mask (n.user cp))) &&
  (o.nick.all fun mask => agrees o.nickFlag (stringMatch mask (n.nick cp))) &&
  (o.host.all fun mask => agrees o.hostFlag
    (stringMatch mask (if n.canSeeRealHost cli cp then n.orighost cp else n.host cp))) &&
  (o.gcos.all fun mask => agrees o.gcosFlag (stringMatch mask (n.info cp))) &&
  (!n.canSeeRealHost cli cp || o.ip.all fun mask => agrees o.ipFlag
    (stringMatch mask (n.ip cp) || ipmatch mask (n.ip cp)))

/-- `who_first_visible`, with the channel that is found so far. -/
def whoFirstVisible : Bytes → List ℕ → Bytes
  | ret, [] => ret
  | ret, c :: chans =>
      if n.onchannel cli c then whoFirstVisible (n.chanName c) chans
      else if n.canSee cli c = -2 then percentSign :: n.chanName c
      else if n.canSee cli c < 0 then n.chanName c
      else whoFirstVisible ret chans

/-- `WHO_WHICH_HOPS`. -/
def whichHops (k srv : ℕ) : ℕ := if !n.hidden srv || n.seeServers k then n.hops srv else 0

/-- A reply; `asker` is the client whose privilege is asked for the hops. -/
def whoReply (asker : ℕ) (chan pfx : Bytes) (cp : ℕ) : WhoLine :=
  .reply {
    chan := chan
    user := n.user cp
    host := if n.canSeeRealHost cli cp then n.orighost cp else n.host cp
    server := n.serverName (n.server cp)
    nick := n.nick cp
    status := (if n.away cp then [71] else [72]) ++
      (if n.oper cp then [star] else if n.invis cp && n.oper cli then [percentSign] else []) ++ pfx
    hops := whichHops n asker (n.server cp)
    info := n.info cp }

/-- The channel that a reply shows outside a search of channels. -/
def shownChan (o : WhoOpts) (cp : ℕ) : Bytes :=
  if o.showChan then whoFirstVisible n cli [star] (n.chans cp) else [star]

/-- A query for a channel. -/
def whoChannel (o : WhoOpts) (c : ℕ) : List WhoLine :=
  let members (showall : Bool) : List WhoLine :=
    ((n.users c).filter fun cp => whoCheck n cli o cp showall).map fun cp =>
      whoReply n cli cli (n.chanName c) (n.prefixes c cp) cp
  if n.onchannel cli c then members true ++ [.endOf (n.chanName c)]
  else
    let see := n.canSee cli c
    if 0 ≤ see then
      (if see = 0 then [] else [.cannotSee see (n.chanName c)]) ++ [.endOf (n.chanName c)]
    else members (n.whoInvis cli) ++ [.endOf (n.chanName c)]

/-- A query for one nick. -/
def whoNick (o : WhoOpts) (nick : Bytes) : List WhoLine :=
  let found := (n.findClient nick).filter fun cp => whoCheck n cli o cp true
  (found.map fun cp => whoReply n cli cp (shownChan n cli o cp) [] cp).toList ++ [.endOf nick]

/-- The loop over the members of a channel that the issuer is on, with the replies so far. -/
def whoMembers (o : WhoOpts) (c : ℕ) : ℤ → ℤ → List ℕ → List WhoLine × ℤ × ℤ
  | max, shown, [] => ([], max, shown)
  | max, shown, cp :: users =>
      if !whoCheck n cli o cp true then whoMembers o c max shown users
      else if max ≠ 0 ∧ max ≤ shown then
        (if shown = max then [.limit max] else [], max + 1, shown)
      else
        let (lines, max, shown) := whoMembers o c max (shown + 1) users
        (whoReply n cli cli (n.chanName c) [] cp :: lines, max, shown)

/-- The loop over the channels of the issuer. -/
def whoMine (o : WhoOpts) : ℤ → ℤ → List ℕ → List WhoLine
  | _, _, [] => []
  | max, shown, c :: chans =>
      let (lines, max, shown) := whoMembers n cli o c max shown (n.users c)
      lines ++ whoMine o max shown chans

/-- The loop over all clients. -/
def whoAll (o : WhoOpts) (max : ℤ) : ℤ → List ℕ → List WhoLine
  | _, [] => []
  | shown, cp :: clients =>
      if !n.registered cp then whoAll o max shown clients
      else if !whoCheck n cli o cp (n.whoInvis cli) then whoAll o max shown clients
      else if max ≠ 0 ∧ shown = max then [.limit max]
      else whoReply n cli cli (shownChan n cli o cp) [] cp :: whoAll o max (shown + 1) clients

/-- What the last line names, be it the word of the command. -/
def whoEnd (o : WhoOpts) (word : Bytes) : Bytes :=
  (o.host <|> o.ip <|> o.nick <|> o.user <|> o.gcos <|> o.server.map n.serverName).getD word

/-- The search. -/
def whoSearch (o : WhoOpts) (word : Bytes) : List WhoLine :=
  match o.channel, o.nick.filter fun nick => star ∉ nick ∧ question ∉ nick with
  | some c, _ => whoChannel n cli o c
  | none, some nick => whoNick n cli o nick
  | none, none =>
      (if o.searchChan then whoMine n cli o (n.whoLimit cli) 0 (n.chans cli)
        else whoAll n cli o (n.whoLimit cli) 0 n.clients) ++ [.endOf (whoEnd n o word)]

/-- The command, for a local client. -/
def whoCommand (word : Bytes) (argv : List Bytes) : List WhoLine :=
  let (o, lines, go) := whoParseOptions n cli argv
  lines ++ if go then whoSearch n cli o word else []

/-! ### The last line -/

/-- `RPL_ENDOFWHO`. -/
def WhoLine.isEnd : WhoLine → Bool
  | .endOf _ => true
  | _ => false

/-- A line for the list itself. -/
def WhoLine.listing : WhoLine → Bool
  | .reply _ | .limit _ => true
  | _ => false

variable {n cli}

theorem listing_whoMembers {o : WhoOpts} {c : ℕ} {max shown : ℤ} {users : List ℕ} :
    ∀ x ∈ (whoMembers n cli o c max shown users).1, x.listing = true := by
  induction users generalizing max shown with
  | nil =>
    intro x hx
    cases hx
  | cons cp users ih =>
    intro x hx
    rw [whoMembers] at hx
    split_ifs at hx
    · exact ih x hx
    · obtain rfl := List.mem_singleton.1 hx
      rfl
    · cases hx
    · rcases List.mem_cons.1 hx with rfl | hx
      · rfl
      · exact ih x hx

theorem listing_whoMine {o : WhoOpts} {max shown : ℤ} {chans : List ℕ} :
    ∀ x ∈ whoMine n cli o max shown chans, x.listing = true := by
  induction chans generalizing max shown with
  | nil =>
    intro x hx
    cases hx
  | cons c chans ih =>
    intro x hx
    rcases List.mem_append.1 hx with hx | hx
    · exact listing_whoMembers x hx
    · exact ih x hx

theorem listing_whoAll {o : WhoOpts} {max shown : ℤ} {clients : List ℕ} :
    ∀ x ∈ whoAll n cli o max shown clients, x.listing = true := by
  induction clients generalizing shown with
  | nil =>
    intro x hx
    cases hx
  | cons cp clients ih =>
    intro x hx
    rw [whoAll] at hx
    split_ifs at hx
    · exact ih x hx
    · exact ih x hx
    · obtain rfl := List.mem_singleton.1 hx
      rfl
    · rcases List.mem_cons.1 hx with rfl | hx
      · rfl
      · exact ih x hx

/-- A line that is neither the last one nor says that something is wrong. -/
def WhoLine.plain (x : WhoLine) : Prop := x.isEnd = false ∧ x ≠ .syntaxError

theorem WhoLine.plain_of_listing {x : WhoLine} (h : x.listing = true) : x.plain := by
  cases x <;> first | exact ⟨rfl, WhoLine.noConfusion⟩ | cases h

/-- A search has one last line. -/
theorem whoSearch_eq (o : WhoOpts) (word : Bytes) :
    ∃ lines arg, whoSearch n cli o word = lines ++ [.endOf arg] ∧ ∀ x ∈ lines, x.plain := by
  have hreplies : ∀ (l : List ℕ) (f : ℕ → WhoLine), (∀ k, (f k).listing = true) →
      ∀ x ∈ l.map f, x.plain := by
    intro l f hf x hx
    obtain ⟨k, -, rfl⟩ := List.mem_map.1 hx
    exact WhoLine.plain_of_listing (hf k)
  rw [whoSearch]
  split
  · rename_i c _ _ _
    rw [whoChannel]
    dsimp only
    split_ifs
    · exact ⟨_, _, rfl, hreplies _ _ fun _ => rfl⟩
    · exact ⟨_, _, rfl, fun _ hx => absurd hx List.not_mem_nil⟩
    · refine ⟨_, _, rfl, fun x hx => ?_⟩
      obtain rfl := List.mem_singleton.1 hx
      exact ⟨rfl, WhoLine.noConfusion⟩
    · exact ⟨_, _, rfl, hreplies _ _ fun _ => rfl⟩
  · refine ⟨_, _, rfl, fun x hx => ?_⟩
    obtain ⟨k, -, rfl⟩ := Option.map_eq_some_iff.1 (Option.mem_toList.1 hx)
    exact ⟨rfl, WhoLine.noConfusion⟩
  · refine ⟨_, _, rfl, fun x hx => WhoLine.plain_of_listing ?_⟩
    split_ifs at hx
    · exact listing_whoMine x hx
    · exact listing_whoAll x hx

/-- Where nothing more is done, a last line is sent. -/
def WhoStep.Proper (r : WhoStep) : Prop :=
  ∀ lines, r = .stop lines → ∃ x arg, lines = [x, .endOf arg] ∧ x.plain

theorem WhoStep.proper_go {o : WhoOpts} {args : List Bytes} : (WhoStep.go o args).Proper :=
  fun _ h => WhoStep.noConfusion h

theorem WhoStep.proper_wrong : WhoStep.wrong.Proper := fun _ h => WhoStep.noConfusion h

theorem WhoStep.proper_stop {x : WhoLine} {arg : Bytes} (h : x.plain) :
    (WhoStep.stop [x, .endOf arg]).Proper := fun _ hstop => by
  obtain rfl := WhoStep.stop.inj hstop
  exact ⟨x, arg, rfl, h⟩

theorem WhoStep.proper_ite {p : Prop} [Decidable p] {r r' : WhoStep} (h : r.Proper)
    (h' : r'.Proper) : (if p then r else r').Proper := by
  split
  · exact h
  · exact h'

theorem proper_textLetter {allowed : Bool} {set : Bytes → WhoOpts} {args : List Bytes} :
    (textLetter allowed set args).Proper := by
  cases args with
  | nil => exact WhoStep.proper_wrong
  | cons arg args => exact WhoStep.proper_ite WhoStep.proper_go WhoStep.proper_wrong

theorem proper_channelLetter {change : Bool} {o : WhoOpts} {args : List Bytes} :
    (channelLetter n change o args).Proper := by
  cases args with
  | nil => exact WhoStep.proper_wrong
  | cons arg args =>
    refine WhoStep.proper_ite WhoStep.proper_wrong ?_
    cases n.findChannel arg with
    | none => exact WhoStep.proper_stop ⟨rfl, WhoLine.noConfusion⟩
    | some c => exact WhoStep.proper_go

theorem proper_serverLetter {change : Bool} {o : WhoOpts} {args : List Bytes} :
    (serverLetter n change o args).Proper := by
  cases args with
  | nil => exact WhoStep.proper_wrong
  | cons arg args =>
    rw [serverLetter]
    cases n.findServer arg with
    | none => exact WhoStep.proper_stop ⟨rfl, WhoLine.noConfusion⟩
    | some srv => exact WhoStep.proper_go

theorem proper_whoLetter (change : Bool) (o : WhoOpts) (args : List Bytes) (c : UInt8) :
    (whoLetter n cli change o args c).Proper := by
  unfold whoLetter
  refine WhoStep.proper_ite WhoStep.proper_go ?_
  refine WhoStep.proper_ite proper_channelLetter ?_
  refine WhoStep.proper_ite WhoStep.proper_go ?_
  refine WhoStep.proper_ite proper_textLetter ?_
  refine WhoStep.proper_ite proper_textLetter ?_
  refine WhoStep.proper_ite proper_textLetter ?_
  refine WhoStep.proper_ite proper_textLetter ?_
  refine WhoStep.proper_ite WhoStep.proper_go ?_
  refine WhoStep.proper_ite proper_textLetter ?_
  refine WhoStep.proper_ite proper_serverLetter ?_
  exact WhoStep.proper_ite proper_textLetter WhoStep.proper_go

theorem whoFlags_stop {flags : Bytes} {change : Bool} {o : WhoOpts} {args : List Bytes}
    {lines : List WhoLine} (h : whoFlags n cli flags change o args = .stop lines) :
    ∃ x arg, lines = [x, .endOf arg] ∧ x.plain := by
  induction flags generalizing change o args with
  | nil => cases h
  | cons c flags ih =>
    rw [whoFlags] at h
    split_ifs at h
    · exact ih h
    · exact ih h
    · cases hletter : whoLetter n cli change o args c with
      | go o args =>
        rw [hletter] at h
        exact ih h
      | stop lines' =>
        rw [hletter] at h
        obtain rfl := WhoParse.stop.inj h
        exact proper_whoLetter _ _ _ _ _ hletter
      | wrong =>
        rw [hletter] at h
        cases h

theorem whoSensible_ne_stop (o : WhoOpts) (args : List Bytes) (lines : List WhoLine) :
    whoSensible n o args ≠ .stop lines := by
  intro h
  rw [whoSensible.eq_def] at h
  split_ifs at h
  · cases args with
    | nil => cases h
    | cons arg args =>
      dsimp only at h
      split_ifs at h
  · cases args with
    | nil => cases h
    | cons arg args =>
      dsimp only at h
      split_ifs at h

/-- What is sent for the options: all that there is, nothing, or that they are wrong. -/
inductive ParseLines (flags : Bytes) : List WhoLine → Bool → Prop
  | stop {lines : List WhoLine} {arg : Bytes} (h : ∀ x ∈ lines, x.plain) :
      ParseLines flags (lines ++ [.endOf arg]) false
  | good : ParseLines flags [] true
  | wrong : ParseLines flags [.syntaxError, .endOf flags] true

theorem parseLines_result {flags : Bytes} {p : WhoParse}
    (hstop : ∀ lines, p = .stop lines → ∃ x arg, lines = [x, .endOf arg] ∧ x.plain) :
    ParseLines flags (p.result flags).2.1 (p.result flags).2.2 := by
  cases p with
  | done o args => exact .good
  | wrong o => exact .wrong
  | stop lines =>
    obtain ⟨x, arg, rfl, hx⟩ := hstop lines rfl
    refine @ParseLines.stop flags [x] arg fun y hy => ?_
    obtain rfl := List.mem_singleton.1 hy
    exact hx

theorem parseLines_whoParseOptions (argv : List Bytes) :
    ParseLines (argv.headD []) (whoParseOptions n cli argv).2.1
      (whoParseOptions n cli argv).2.2 := by
  have hone : ∀ {flags arg : Bytes} {x : WhoLine}, x.plain →
      ParseLines flags [x, .endOf arg] false := by
    intro flags arg x hx
    refine @ParseLines.stop flags [x] arg fun y hy => ?_
    obtain rfl := List.mem_singleton.1 hy
    exact hx
  cases argv with
  | nil => exact hone ⟨rfl, WhoLine.noConfusion⟩
  | cons flags args =>
    rw [whoParseOptions]
    split_ifs
    · exact hone ⟨rfl, WhoLine.noConfusion⟩
    · exact .good
    · cases n.findChannel flags with
      | none => exact hone ⟨rfl, WhoLine.noConfusion⟩
      | some c => exact .good
    · exact .good
    · exact .good
    · cases hflags : whoFlags n cli flags true noOpts args with
      | done o rest =>
        exact parseLines_result fun lines h => absurd h (whoSensible_ne_stop o rest lines)
      | stop lines =>
        refine parseLines_result fun lines' h => ?_
        obtain rfl := WhoParse.stop.inj h
        exact whoFlags_stop hflags
      | wrong o => exact .wrong

theorem count_plain {lines : List WhoLine} (h : ∀ x ∈ lines, x.plain) :
    lines.countP WhoLine.isEnd = 0 ∧ lines.count .syntaxError = 0 :=
  ⟨List.countP_eq_zero.2 fun x hx => by rw [(h x hx).1]; exact Bool.false_ne_true,
    List.count_eq_zero.2 fun hx => (h _ hx).2 rfl⟩

theorem count_plain_endOf {lines : List WhoLine} (h : ∀ x ∈ lines, x.plain) (arg : Bytes) :
    (lines ++ [WhoLine.endOf arg]).countP WhoLine.isEnd = 1 ∧
      (lines ++ [WhoLine.endOf arg]).count .syntaxError = 0 := by
  obtain ⟨hend, hwrong⟩ := count_plain h
  rw [List.countP_append, List.count_append, hend, hwrong]
  exact ⟨rfl, rfl⟩

/-- Whatever is asked for, the list ends once, and once more if the options were wrong: then the
search follows all the same. -/
theorem whoCommand_ends (n : WhoNet) (cli : ℕ) (word : Bytes) (argv : List Bytes) :
    (whoCommand n cli word argv).countP WhoLine.isEnd =
      1 + (whoCommand n cli word argv).count .syntaxError ∧
    (WhoLine.syntaxError ∈ whoCommand n cli word argv →
      whoCommand n cli word argv = .syntaxError :: .endOf (argv.headD []) ::
        whoSearch n cli (whoParseOptions n cli argv).1 word) := by
  have hparse := @parseLines_whoParseOptions n cli argv
  rw [whoCommand]
  generalize whoParseOptions n cli argv = p at hparse ⊢
  obtain ⟨o, lines, go⟩ := p
  obtain ⟨found, arg, hsearch, hfound⟩ := @whoSearch_eq n cli o word
  obtain ⟨hend, hwrong⟩ := count_plain_endOf hfound arg
  rw [← hsearch] at hend hwrong
  dsimp only at hparse ⊢
  cases hparse with
  | stop h =>
    rename_i before arg'
    obtain ⟨hend', hwrong'⟩ := count_plain_endOf h arg'
    rw [if_neg Bool.false_ne_true, List.append_nil, hend', hwrong']
    exact ⟨rfl, fun hmem => absurd hmem (List.count_eq_zero.1 hwrong')⟩
  | good =>
    rw [if_pos rfl, List.nil_append, hend, hwrong]
    exact ⟨rfl, fun hmem => absurd hmem (List.count_eq_zero.1 hwrong)⟩
  | wrong =>
    rw [if_pos rfl, List.countP_append, List.count_append, hend, hwrong]
    exact ⟨rfl, fun _ => rfl⟩

/-! ### All clients -/

/-- A list up to a limit; there is none if it is not above 0. -/
def listed (max : ℤ) (line : ℕ → WhoLine) (found : List ℕ) : List WhoLine :=
  if max ≤ 0 then found.map line
  else (found.take max.toNat).map line ++ if max.toNat < found.length then [.limit max] else []

/-- The clients that a search of all of them finds. -/
def foundBy (n : WhoNet) (cli : ℕ) (o : WhoOpts) (cp : ℕ) : Bool :=
  n.registered cp && whoCheck n cli o cp (n.whoInvis cli)

theorem whoAll_cons (o : WhoOpts) (max shown : ℤ) (cp : ℕ) (clients : List ℕ) :
    whoAll n cli o max shown (cp :: clients) =
      if foundBy n cli o cp then
        if max ≠ 0 ∧ shown = max then [.limit max]
        else whoReply n cli cli (shownChan n cli o cp) [] cp ::
          whoAll n cli o max (shown + 1) clients
      else whoAll n cli o max shown clients := by
  rw [whoAll, foundBy]
  cases n.registered cp <;> cases whoCheck n cli o cp (n.whoInvis cli) <;> rfl

/-- Without a limit all are listed. -/
theorem whoAll_unlimited {o : WhoOpts} {max : ℤ} (hmax : max ≤ 0) {shown : ℤ} (hshown : 0 ≤ shown)
    (clients : List ℕ) : whoAll n cli o max shown clients =
      (clients.filter (foundBy n cli o)).map fun cp =>
        whoReply n cli cli (shownChan n cli o cp) [] cp := by
  induction clients generalizing shown with
  | nil => rfl
  | cons cp clients ih =>
    rw [whoAll_cons, List.filter_cons]
    by_cases hfound : foundBy n cli o cp = true
    · rw [if_pos hfound, if_pos hfound, if_neg (by omega), List.map_cons, ih (by omega)]
    · rw [if_neg hfound, if_neg hfound, ih hshown]

/-- With a limit, those that there is room for. -/
theorem whoAll_limited {o : WhoOpts} {max shown : ℤ} (hmax : 0 < max) (room : ℕ)
    (hroom : shown + room = max) (clients : List ℕ) : whoAll n cli o max shown clients =
      ((clients.filter (foundBy n cli o)).take room).map (fun cp =>
          whoReply n cli cli (shownChan n cli o cp) [] cp) ++
        if room < (clients.filter (foundBy n cli o)).length then [.limit max] else [] := by
  induction clients generalizing shown room with
  | nil => simp [whoAll]
  | cons cp clients ih =>
    rw [whoAll_cons, List.filter_cons]
    by_cases hfound : foundBy n cli o cp = true
    · rw [if_pos hfound, if_pos hfound]
      cases room with
      | zero =>
        rw [if_pos (by omega), if_pos (by simp), List.take_zero, List.map_nil, List.nil_append]
      | succ room =>
        rw [if_neg (by omega), ih room (by omega), List.take_succ_cons, List.map_cons,
          List.cons_append]
        simp only [List.length_cons, Nat.add_lt_add_iff_right]
    · rw [if_neg hfound, if_neg hfound, ih room hroom]

theorem whoAll_eq (o : WhoOpts) (max : ℤ) (clients : List ℕ) :
    whoAll n cli o max 0 clients =
      listed max (fun cp => whoReply n cli cli (shownChan n cli o cp) [] cp)
        (clients.filter (foundBy n cli o)) := by
  rw [listed]
  by_cases hmax : max ≤ 0
  · rw [if_pos hmax, whoAll_unlimited hmax (Int.le_refl 0)]
  · rw [if_neg hmax, whoAll_limited (by omega) max.toNat (by omega)]

/-! ### Conditions -/

/-- The fields that are compared with a text. -/
inductive WhoField
  | nick
  | user
  | host
  | gcos
  | ip
  deriving DecidableEq

/-- A condition that a query may ask for, or ask to fail. -/
inductive WhoCond
  | away (sign : Bool)
  | text (field : WhoField) (sign : Bool) (mask : Bytes)
  | modes (sign : Bool) (letters : Bytes)
  | server (sign : Bool) (name : Bytes)
  deriving DecidableEq

def WhoField.letter : WhoField → UInt8
  | nick => 110
  | user => 117
  | host => 104
  | gcos => 103
  | ip => 105

namespace WhoCond

def letter : WhoCond → UInt8
  | away _ => 97
  | text field _ _ => field.letter
  | modes _ _ => 109
  | server _ _ => 115

def sign : WhoCond → Bool
  | away sign | text _ sign _ | modes sign _ | server sign _ => sign

def args : WhoCond → List Bytes
  | away _ => []
  | text _ _ mask => [mask]
  | modes _ letters => [letters]
  | server _ name => [name]

/-- Texts of the real name and addresses are for operators, and a server is to be there. -/
def Allowed (n : WhoNet) (cli : ℕ) : WhoCond → Prop
  | text .gcos _ _ | text .ip _ _ => n.oper cli = true
  | server _ name => (n.findServer name).isSome
  | _ => True

/-- The condition itself. Modes that the issuer may not ask for, and addresses that it may not see,
are no condition. -/
def holds (n : WhoNet) (cli : ℕ) (cp : ℕ) : WhoCond → Bool
  | away sign => agrees sign (n.away cp)
  | text .nick sign mask => agrees sign (stringMatch mask (n.nick cp))
  | text .user sign mask => agrees sign (stringMatch mask (n.user cp))
  | text .host sign mask =>
      agrees sign (stringMatch mask (if n.canSeeRealHost cli cp then n.orighost cp else n.host cp))
  | text .gcos sign mask => agrees sign (stringMatch mask (n.info cp))
  | text .ip sign mask => !n.canSeeRealHost cli cp ||
      agrees sign (stringMatch mask (n.ip cp) || ipmatch mask (n.ip cp))
  | modes sign letters =>
      let asked := askedModes n cli 0 letters
      asked == 0 || agrees sign (n.modes cp &&& asked == asked)
  | server sign name => (n.findServer name).all fun srv => agrees sign (n.server cp == srv)

/-- What the options are with a condition. -/
def put (n : WhoNet) (cli : ℕ) (o : WhoOpts) : WhoCond → WhoOpts
  | away sign => { o with awayFlag := sign, checkAway := true }
  | text .nick sign mask => { o with nick := some mask, nickFlag := sign }
  | text .user sign mask => { o with user := some mask, userFlag := sign }
  | text .host sign mask => { o with host := some mask, hostFlag := sign }
  | text .gcos sign mask => { o with gcos := some mask, gcosFlag := sign }
  | text .ip sign mask => { o with ip := some mask, ipFlag := sign }
  | modes sign letters =>
      let usermodes := askedModes n cli o.usermodes letters
      if usermodes = 0 then { o with usermodes := 0 }
      else { o with usermodes := usermodes, checkUmode := true, umodeFlag := sign }
  | server sign name => { o with server := n.findServer name, serverFlag := sign }

end WhoCond

/-- The query that asks for conditions. -/
def spell (conds : List WhoCond) : List Bytes :=
  (conds.flatMap fun c => [if c.sign then plusSign else minusSign, c.letter]) ::
    conds.flatMap WhoCond.args

/-- The options that a letter sets are not set. -/
def WhoOpts.unset (o : WhoOpts) (c : UInt8) : Prop :=
  if c = 97 then o.checkAway = false
  else if c = 110 then o.nick = none
  else if c = 117 then o.user = none
  else if c = 104 then o.host = none
  else if c = 103 then o.gcos = none
  else if c = 105 then o.ip = none
  else if c = 109 then o.usermodes = 0 ∧ o.checkUmode = false
  else if c = 115 then o.server = none
  else True

theorem whoLetter_put {c : WhoCond} (h : c.Allowed n cli) (o : WhoOpts) (rest : List Bytes) :
    whoLetter n cli c.sign o (c.args ++ rest) c.letter = .go (c.put n cli o) rest := by
  cases c with
  | away sign => rfl
  | text field sign mask =>
    cases field with
    | nick | user | host => rfl
    | gcos | ip => exact if_pos h
  | modes sign letters => rfl
  | server sign name =>
    obtain ⟨srv, hsrv⟩ := Option.isSome_iff_exists.1 h
    show serverLetter n sign o (name :: rest) = _
    rw [serverLetter, hsrv, WhoCond.put, hsrv]

theorem WhoCond.letter_ne (c : WhoCond) : c.letter ≠ plusSign ∧ c.letter ≠ minusSign := by
  cases c with
  | away sign => exact (by decide : (97 : UInt8) ≠ plusSign ∧ (97 : UInt8) ≠ minusSign)
  | text field sign mask =>
    have hfield : ∀ f : WhoField, f.letter ≠ plusSign ∧ f.letter ≠ minusSign := by
      intro f
      cases f <;> decide
    exact hfield field
  | modes sign letters => exact (by decide : (109 : UInt8) ≠ plusSign ∧ (109 : UInt8) ≠ minusSign)
  | server sign name => exact (by decide : (115 : UInt8) ≠ plusSign ∧ (115 : UInt8) ≠ minusSign)

/-- The loop reads the conditions one after the other. -/
theorem whoFlags_spell {conds : List WhoCond} (h : ∀ c ∈ conds, c.Allowed n cli) (change : Bool)
    (o : WhoOpts) : whoFlags n cli
      (conds.flatMap fun c => [if c.sign then plusSign else minusSign, c.letter]) change o
      (conds.flatMap WhoCond.args) = .done (conds.foldl (WhoCond.put n cli) o) [] := by
  induction conds generalizing change o with
  | nil => rfl
  | cons c conds ih =>
    have hletter := c.letter_ne
    have hc := whoLetter_put (h c List.mem_cons_self) o (conds.flatMap WhoCond.args)
    have hrest := ih (fun c' hc' => h c' (List.mem_cons_of_mem c hc')) c.sign (c.put n cli o)
    rw [List.flatMap_cons, List.flatMap_cons, List.foldl_cons]
    show whoFlags n cli ((if c.sign then plusSign else minusSign) :: c.letter :: _) _ _ _ = _
    cases hsign : c.sign with
    | true =>
      rw [hsign] at hc hrest
      rw [if_pos rfl, whoFlags, if_pos rfl, whoFlags, if_neg hletter.1, if_neg hletter.2, hc]
      exact hrest
    | false =>
      rw [hsign] at hc hrest
      rw [if_neg Bool.false_ne_true, whoFlags, if_neg (by decide), if_pos rfl, whoFlags,
        if_neg hletter.1, if_neg hletter.2, hc]
      exact hrest

/-- A condition more is checked, if its letter was not used before. -/
theorem whoCheck_put {c : WhoCond} {o : WhoOpts} (hallowed : c.Allowed n cli)
    (hunset : o.unset c.letter) (cp : ℕ) (showall : Bool) :
    whoCheck n cli (c.put n cli o) cp showall =
      (whoCheck n cli o cp showall && c.holds n cli cp) := by
  cases c with
  | away sign =>
    have h : o.checkAway = false := hunset
    simp only [whoCheck, WhoCond.put, WhoCond.holds, h, Bool.not_false, Bool.true_or, Bool.and_true,
      Bool.not_true, Bool.false_or]
    ac_rfl
  | text field sign mask =>
    cases field with
    | nick =>
      have h : o.nick = none := hunset
      simp only [whoCheck, WhoCond.put, WhoCond.holds, h, Option.all_none, Option.all_some,
        Bool.and_true]
      ac_rfl
    | user =>
      have h : o.user = none := hunset
      simp only [whoCheck, WhoCond.put, WhoCond.holds, h, Option.all_none, Option.all_some,
        Bool.and_true]
      ac_rfl
    | host =>
      have h : o.host = none := hunset
      simp only [whoCheck, WhoCond.put, WhoCond.holds, h, Option.all_none, Option.all_some,
        Bool.and_true]
      ac_rfl
    | gcos =>
      have h : o.gcos = none := hunset
      simp only [whoCheck, WhoCond.put, WhoCond.holds, h, Option.all_none, Option.all_some,
        Bool.and_true]
      ac_rfl
    | ip =>
      have h : o.ip = none := hunset
      simp only [whoCheck, WhoCond.put, WhoCond.holds, h, Option.all_none, Option.all_some,
        Bool.or_true, Bool.and_true]
  | modes sign letters =>
    obtain ⟨hmodes, hcheck⟩ : o.usermodes = 0 ∧ o.checkUmode = false := hunset
    by_cases hasked : askedModes n cli 0 letters = 0
    · simp only [whoCheck, WhoCond.put, WhoCond.holds, hmodes, hcheck, hasked, if_pos,
        beq_self_eq_true, Bool.true_or, Bool.and_true, Bool.not_false]
    · simp only [whoCheck, WhoCond.put, WhoCond.holds, hmodes, hcheck, hasked, if_false,
        beq_eq_false_iff_ne.2 hasked, Bool.true_or, Bool.and_true, Bool.not_false, Bool.not_true,
        Bool.false_or]
      ac_rfl
  | server sign name =>
    have h : o.server = none := hunset
    simp only [whoCheck, WhoCond.put, WhoCond.holds, h, Option.all_none, Bool.and_true]
    ac_rfl

/-- A condition leaves the other letters as they are. -/
theorem unset_put {c : WhoCond} {o : WhoOpts} {l : UInt8} (h : o.unset l) (hl : l ≠ c.letter) :
    (c.put n cli o).unset l := by
  unfold WhoOpts.unset at h ⊢
  cases c with
  | away sign =>
    have hne : ¬ l = 97 := hl
    simp only [if_neg hne] at h ⊢
    exact h
  | text field sign mask =>
    cases field with
    | nick =>
      have hne : ¬ l = 110 := hl
      simp only [if_neg hne] at h ⊢
      exact h
    | user =>
      have hne : ¬ l = 117 := hl
      simp only [if_neg hne] at h ⊢
      exact h
    | host =>
      have hne : ¬ l = 104 := hl
      simp only [if_neg hne] at h ⊢
      exact h
    | gcos =>
      have hne : ¬ l = 103 := hl
      simp only [if_neg hne] at h ⊢
      exact h
    | ip =>
      have hne : ¬ l = 105 := hl
      simp only [if_neg hne] at h ⊢
      exact h
  | modes sign letters =>
    have hne : ¬ l = 109 := hl
    simp only [if_neg hne] at h ⊢
    unfold WhoCond.put
    dsimp only
    by_cases hasked : askedModes n cli o.usermodes letters = 0
    · rw [if_pos hasked]
      exact h
    · rw [if_neg hasked]
      exact h
  | server sign name =>
    have hne : ¬ l = 115 := hl
    simp only [if_neg hne] at h ⊢
    exact h

theorem whoCheck_foldl {conds : List WhoCond} {o : WhoOpts}
    (hallowed : ∀ c ∈ conds, c.Allowed n cli) (hletters : (conds.map WhoCond.letter).Nodup)
    (hunset : ∀ c ∈ conds, o.unset c.letter) (cp : ℕ) (showall : Bool) :
    whoCheck n cli (conds.foldl (WhoCond.put n cli) o) cp showall =
      (whoCheck n cli o cp showall && conds.all (WhoCond.holds n cli cp)) := by
  induction conds generalizing o with
  | nil => exact (Bool.and_true _).symm
  | cons c conds ih =>
    obtain ⟨hc, hconds⟩ := List.nodup_cons.1 hletters
    have hrest : ∀ c' ∈ conds, (c.put n cli o).unset c'.letter := by
      intro c' hc'
      refine unset_put (hunset c' (List.mem_cons_of_mem c hc')) fun heq => hc ?_
      exact heq ▸ List.mem_map_of_mem hc'
    rw [List.foldl_cons, ih (fun c' hc' => hallowed c' (List.mem_cons_of_mem c hc')) hconds hrest,
      whoCheck_put (hallowed c List.mem_cons_self) (hunset c List.mem_cons_self), List.all_cons,
      Bool.and_assoc]

theorem unset_noOpts (c : UInt8) : noOpts.unset c := by
  unfold WhoOpts.unset
  split_ifs
  any_goals rfl
  exact ⟨rfl, rfl⟩

theorem whoCheck_noOpts (cp : ℕ) (showall : Bool) :
    whoCheck n cli noOpts cp showall = (!n.invis cp || showall) := by
  simp [whoCheck, noOpts]

/-- What conditions do not touch. -/
theorem put_channel (c : WhoCond) (o : WhoOpts) :
    (c.put n cli o).channel = o.channel ∧ (c.put n cli o).showChan = o.showChan ∧
      (c.put n cli o).searchChan = o.searchChan := by
  cases c with
  | text field sign mask => cases field <;> exact ⟨rfl, rfl, rfl⟩
  | away sign => exact ⟨rfl, rfl, rfl⟩
  | server sign name => exact ⟨rfl, rfl, rfl⟩
  | modes sign letters =>
    unfold WhoCond.put
    dsimp only
    split_ifs <;> exact ⟨rfl, rfl, rfl⟩

theorem foldl_put_channel (conds : List WhoCond) (o : WhoOpts) :
    (conds.foldl (WhoCond.put n cli) o).channel = o.channel ∧
      (conds.foldl (WhoCond.put n cli) o).showChan = o.showChan ∧
      (conds.foldl (WhoCond.put n cli) o).searchChan = o.searchChan := by
  induction conds generalizing o with
  | nil => exact ⟨rfl, rfl, rfl⟩
  | cons c conds ih =>
    obtain ⟨hchannel, hshow, hsearch⟩ := ih (c.put n cli o)
    obtain ⟨hchannel', hshow', hsearch'⟩ := @put_channel n cli c o
    exact ⟨hchannel.trans hchannel', hshow.trans hshow', hsearch.trans hsearch'⟩

/-- The mask for nicks is one of those asked for. -/
theorem foldl_put_nick (conds : List WhoCond) (o : WhoOpts) {mask : Bytes}
    (h : (conds.foldl (WhoCond.put n cli) o).nick = some mask) :
    o.nick = some mask ∨ ∃ sign, .text .nick sign mask ∈ conds := by
  induction conds generalizing o with
  | nil => exact .inl h
  | cons c conds ih =>
    rcases ih (c.put n cli o) h with hput | ⟨sign, hsign⟩
    · cases c with
      | text field sign mask' =>
        cases field with
        | nick =>
          obtain rfl := Option.some.inj hput
          exact .inr ⟨sign, List.mem_cons_self⟩
        | user | host | gcos | ip => exact .inl hput
      | away sign => exact .inl hput
      | server sign name => exact .inl hput
      | modes sign letters =>
        unfold WhoCond.put at hput
        dsimp only at hput
        split_ifs at hput <;> exact .inl hput
    · exact .inr ⟨sign, List.mem_cons_of_mem c hsign⟩

/-- Three clients on two channels; the first and the third are away. -/
def smallNet : WhoNet where
  clients := [1, 2, 3]
  registered _ := true
  nick k := if k = 1 then bytes "ann" else if k = 2 then bytes "bob" else bytes "cyd"
  user _ := bytes "u"
  host k := if k = 3 then bytes "x.com" else bytes "x.org"
  orighost k := if k = 3 then bytes "x.com" else bytes "x.org"
  info _ := []
  ip _ := bytes "10.0.0.1"
  modes _ := 0
  away k := k != 2
  server _ := 0
  chans _ := [7, 8]
  serverName _ := bytes "s"
  hops _ := 0
  hidden _ := false
  chanName _ := bytes "#c"
  users _ := [1, 2, 3]
  prefixes _ _ := []
  modeMask c := if c = 111 then some 1 else if c = 105 then some 2 else none
  findClient _ := none
  findServer _ := none
  findChannel _ := none
  checkChanname s := s.head? == some 35
  canSee _ _ := 0
  whoInvis _ := false
  whoLimit _ := 2
  seeHosts _ := false
  seeServers _ := false

end

end Who

end Ithildin
