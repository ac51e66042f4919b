import Ithildin.Channel.ModeLine
import Ithildin.Lib.Replica
import Ithildin.Lib.Run

/-!
# Topics on both sides of a link

Two servers that are being linked hold a topic each of a channel that they share. They exchange the
topics in the burst, of which the later one stays; clients on both sides change the topic, which the
other side takes over in any case; and the TOPIC lines cross.

* `topicLine`, `receiveTopic`: the line between servers, and what `topic.c` makes of it;
* `TopicLink.step`: a command of a client, or a line that arrives;
* `TopicLink.step_deliver`: what arrives of a topic;
* `TopicLink.topic_eq_iff`: when everything has arrived the servers hold the same topic exactly if
  the last change, or the burst where nothing is changed, has left it so.
-/

namespace Ithildin

open Tokens Replica

def TOPICLEN : ℕ := 384

/-- `struct channel_topic`. -/
structure ChannelTopic where
  setBy : Bytes
  set : ℤ
  topic : Bytes
  deriving DecidableEq

/-- A client of the server, on the channel or not. -/
structure TopicClient where
  nick : Bytes
  onChannel : Bool
  chanop : Bool
  master : Bool
  deriving DecidableEq

/-- `CLIENT topic`, of a client of our own. -/
def localTopic (nicklen : ℕ) (tmode : Bool) (cli : TopicClient) (now : ℤ) (topic : Bytes) :
    Option ChannelTopic :=
  if cli.onChannel = false then none
  else if tmode ∧ cli.chanop = false ∧ cli.master = false then none
  else some ⟨cli.nick.take nicklen, now, topic.take TOPICLEN⟩

/-- `CLIENT topic`, of a remote client. -/
def remoteTopic (nicklen : ℕ) (ct : ChannelTopic) : List Bytes → ChannelTopic
  | [_, _, setBy, ts, topic] => ⟨setBy.take nicklen, strConvInt ts 0, topic.take TOPICLEN⟩
  | _ => ct

/-- `SERVER topic`. -/
def serverTopic (nicklen : ℕ) (ct : ChannelTopic) : List Bytes → ChannelTopic
  | _ :: _ :: setBy :: ts :: topic :: _ =>
      if strConvInt ts 0 ≤ ct.set ∧ ct.topic ≠ [] then ct
      else ⟨setBy.take nicklen, strConvInt ts 0, topic.take TOPICLEN⟩
  | _ => ct

/-- `":sender TOPIC #channel by set :topic"`. -/
def topicLine (sender name : Bytes) (ct : ChannelTopic) : Bytes :=
  packet (colon :: (sender ++ blank :: (bytes "TOPIC" ++ blank :: (name ++ blank ::
    (ct.setBy ++ blank :: (printLong ct.set ++ blank :: colon :: ct.topic))))))

/-- A line arrives at a server that holds the channel. -/
def receiveTopic (nicklen : ℕ) (o : Origins) (last : ℕ → UInt8) (name : Bytes) (ct : ChannelTopic)
    (line : Bytes) : ChannelTopic :=
  match (packetParse .ithildin1 o last (line ++ [0])).1 with
  | .ignored => ct
  | .exec origin argv =>
      let argv := argv.map strAt
      if argv.head? = some (bytes "TOPIC") ∧ argv.tail.head? = some name then
        match origin with
        | .client _ => remoteTopic nicklen ct argv
        | _ => serverTopic nicklen ct argv
      else ct

/-! ### The line -/

theorem itoaLoop_ne_nil (n i : ℕ) {acc : Bytes} (h : acc ≠ []) : itoaLoop n i acc ≠ [] := by
  induction n generalizing i acc with
  | zero => exact h
  | succ n ih =>
    rw [itoaLoop]
    split
    · exact List.cons_ne_nil _ _
    · exact ih _ (List.cons_ne_nil _ _)

/-- A number that has been printed is a word. -/
theorem isWord_printLong_int (v : ℤ) : IsWord (printLong v) := by
  have hall : ∀ n < 256, 48 ≤ (UInt8.ofNat n).toNat ∧ (UInt8.ofNat n).toNat ≤ 57 →
      isSpace (UInt8.ofNat n) = false ∧ UInt8.ofNat n ≠ 0 ∧ UInt8.ofNat n ≠ colon := by
    decide +kernel
  rw [printLong]
  split
  · decide +kernel
  · refine isWord_of_forall ?_ fun c hc => ?_
    · rw [itoa, itoaLoop]
      split
      · exact List.cons_ne_nil _ _
      · exact itoaLoop_ne_nil 19 _ (List.cons_ne_nil _ _)
    · have hdigit := (digit_of_mem_itoaLoop hc).resolve_left (by simp)
      exact forall_byte (p := fun c => 48 ≤ c.toNat ∧ c.toNat ≤ 57 →
        isSpace c = false ∧ c ≠ 0 ∧ c ≠ colon) hall c hdigit

/-- How much of a topic the line has room for. -/
def topicRoom (sender name : Bytes) (ct : ChannelTopic) : ℕ :=
  498 - (sender.length + name.length + ct.setBy.length + (printLong ct.set).length)

/-- The arguments of the line. -/
def topicArgs (sender name : Bytes) (ct : ChannelTopic) : List Bytes :=
  [bytes "TOPIC", name, ct.setBy, printLong ct.set, ct.topic.take (topicRoom sender name ct)]

/-- The line is tokenised as it was put together, but for a topic that is cut off. -/
theorem packetParse_topicLine {o : Origins} {origin : Origin} (last : ℕ → UInt8)
    {sender name : Bytes} {ct : ChannelTopic} (hsender : IsWord sender)
    (hfind : o.find sender = some origin) (hname : IsWord name) (hby : IsWord ct.setBy)
    (htopic : IsText ct.topic)
    (hlen : sender.length + name.length + ct.setBy.length + (printLong ct.set).length ≤ 498) :
    ∃ argv, (packetParse .ithildin1 o last (topicLine sender name ct ++ [0])).1 =
        .exec origin argv ∧ argv.map strAt = topicArgs sender name ct := by
  have hfive : (bytes "TOPIC").length = 5 := rfl
  set t := ct.topic.take (topicRoom sender name ct) with ht
  have hnum := isWord_printLong_int ct.set
  have hwords : ∀ w ∈ [name, ct.setBy, printLong ct.set], IsWord w := by
    simp only [List.mem_cons, List.not_mem_nil, or_false]
    rintro w (rfl | rfl | rfl)
    · exact hname
    · exact hby
    · exact hnum
  -- the text behind the sender
  set l := bytes "TOPIC" ++ ([name, ct.setBy, printLong ct.set].flatMap (fun w => blank :: w) ++
    blank :: colon :: t) with hl
  have hline : topicLine sender name ct = colon :: (sender ++ blank :: l) := by
    have hhead : topicLine sender name ct = packet ((colon :: (sender ++ blank ::
        (bytes "TOPIC" ++ blank :: (name ++ blank :: (ct.setBy ++ blank ::
          (printLong ct.set ++ [blank, colon])))))) ++ ct.topic) := by
      rw [topicLine]
      congr 1
      simp
    rw [hhead, packet, List.take_append, List.take_of_length_le, hl, ht]
    · have hroom : 510 - (colon :: (sender ++ blank :: (bytes "TOPIC" ++ blank :: (name ++
          blank :: (ct.setBy ++ blank :: (printLong ct.set ++ [blank, colon])))))).length =
          topicRoom sender name ct := by
        simp only [topicRoom, List.length_cons, List.length_append, List.length_nil, hfive]
        omega
      rw [hroom]
      simp
    · simp only [List.length_cons, List.length_append, List.length_nil, hfive]
      omega
  have hfields : fieldsRaw isSpace colon 14 l = topicArgs sender name ct := by
    have hword : IsWord (bytes "TOPIC") := by decide +kernel
    have h := fieldsRaw_words (n := 10) (show isSpace blank = true from rfl) hword.1
      (fun w hw => (hwords w hw).1) (r := blank :: colon :: t) rfl
    have htrim : trim isSpace (blank :: colon :: t) = colon :: t := by
      rw [trim_cons_sep rfl, trim_of_not_sep rfl]
    have hlast : fieldsRaw isSpace colon 10 (colon :: t) = [t] := by
      rw [fieldsRaw_succ, if_pos rfl]
    rw [htrim, hlast] at h
    exact h
  have htextt : IsText t := fun h0 => htopic ((List.take_subset _ _) h0)
  have htextl : IsText l := by
    simp only [hl, IsText, List.mem_append, List.mem_flatMap, List.mem_cons, not_or, not_exists,
      not_and]
    refine ⟨by decide, fun w hw => ⟨by decide, (hwords w (by simpa using hw)).2⟩,
      by decide, by decide, htextt⟩
  have hlong : l.length < COMMAND_MAXARGLEN := by
    have hroom : t.length ≤ topicRoom sender name ct := List.length_take_le _ _
    have hpos : 0 < sender.length := List.length_pos_iff.mpr hsender.1.1
    simp only [topicRoom] at hroom
    simp only [hl, List.flatMap_cons, List.flatMap_nil, List.length_append, List.length_cons,
      List.length_nil, hfive, COMMAND_MAXARGLEN]
    omega
  refine ⟨fillFrom last 0 (fieldsRaw isSpace colon 14 l), ?_, ?_⟩
  · rw [hline]
    obtain ⟨l', hl'⟩ : ∃ l', l = 84 :: l' := ⟨_, rfl⟩
    have htextline : IsText (colon :: (sender ++ blank :: l)) := by
      simp only [IsText, List.mem_cons, List.mem_append, not_or]
      exact ⟨by decide, hsender.2, by decide, htextl⟩
    rw [hl'] at htextline ⊢
    exact packetParse_exec last hsender.1.2.1 hfind rfl htextline
  · rw [← hfields]
    refine strAt_fillFrom (fun arg harg => ?_) 0
    have hpiece := infix_of_mem_fieldsRaw harg
    exact ⟨fun h0 => htextl (hpiece.mem h0), hpiece.length_le.trans_lt hlong⟩

/-! ### The servers -/

/-- A TOPIC line as it is given to `output`. -/
structure TopicMsg where
  sender : Bytes
  sent : ChannelTopic

/-- Two servers that are being linked and share a channel: their names and limits, whether the
channel has the mode for topics, the clients on both sides, and the topics. -/
structure TopicLink where
  name : Bytes
  name_isWord : IsWord name
  name_length : name.length ≤ CHANLEN
  me : Bool → Bytes
  me_isWord : ∀ i, IsWord (me i)
  me_dot : ∀ i, dot ∈ me i
  me_length : ∀ i, (me i).length ≤ SERVLEN
  nicklen : Bool → ℕ
  nicklen_pos : ∀ i, 0 < nicklen i
  nicklen_le : ∀ i, nicklen i ≤ NICKLEN
  tmode : Bool → Bool
  clients : Bool → List TopicClient
  nick_isWord : ∀ i, ∀ cli ∈ clients i, IsWord cli.nick
  nick_dot : ∀ i, ∀ cli ∈ clients i, dot ∉ cli.nick
  nick_length : ∀ i, ∀ cli ∈ clients i, cli.nick.length ≤ NICKLEN
  origins : Bool → Origins
  server_known : ∀ i, (origins !i).server (me i) = true
  client_known : ∀ i, ∀ cli ∈ clients i, (origins !i).client cli.nick = true
  last : Bool → ℕ → UInt8
  topic : Bool → ChannelTopic
  setBy_isWord : ∀ i, (topic i).topic ≠ [] → IsWord (topic i).setBy
  setBy_length : ∀ i, (topic i).setBy.length ≤ NICKLEN
  topic_isText : ∀ i, IsText (topic i).topic
  topic_length : ∀ i, (topic i).topic.length ≤ TOPICLEN

/-- What the servers hold, and the lines on the way to each of them. -/
structure TopicState where
  topic : Bool → ChannelTopic
  wire : Bool → List TopicMsg

/-- A client of one side changes the topic, or the first line on the way to one side arrives. -/
inductive TopicEvent
  | change (i : Bool) (cli : TopicClient) (now : ℤ) (topic : Bytes)
  | deliver (i : Bool)

namespace TopicLink

/-- The line of `topic_server_establish_hook`. -/
def burst (s : TopicLink) (i : Bool) : List TopicMsg :=
  if (s.topic i).topic ≠ [] then [⟨s.me i, s.topic i⟩] else []

/-- Both sides have sent their bursts. -/
def start (s : TopicLink) : TopicState := ⟨s.topic, fun i => s.burst !i⟩

/-- `TOPIC #channel :topic`, or a line that arrives. -/
def step (s : TopicLink) (st : TopicState) : TopicEvent → Option TopicState
  | .change i cli now topic =>
      if cli ∈ s.clients i ∧ IsText topic then
        some (match localTopic (s.nicklen i) (s.tmode i) cli now topic with
          | none => st
          | some ct =>
              { topic := Function.update st.topic i ct
                wire := Function.update st.wire (!i) (st.wire (!i) ++ [⟨cli.nick, ct⟩]) })
      else none
  | .deliver i =>
      match st.wire i with
      | [] => none
      | m :: ms =>
          some
            { topic := Function.update st.topic i
                (receiveTopic (s.nicklen i) (s.origins i) (s.last i) s.name (st.topic i)
                  (topicLine m.sender s.name m.sent))
              wire := Function.update st.wire i ms }

/-- What arrives of a topic at the side `i`: the setter as long as a nick may be there, the time as
it is read, and what the line has room for of the text. -/
def arrives (s : TopicLink) (i : Bool) (sender : Bytes) (ct : ChannelTopic) : ChannelTopic :=
  ⟨ct.setBy.take (s.nicklen i), strConvInt (printLong ct.set) 0,
    ct.topic.take (topicRoom sender s.name ct)⟩

/-- A topic that arrives, in the burst or from a client. -/
def taken (burst : Bool) (ct new : ChannelTopic) : ChannelTopic :=
  if burst ∧ new.set ≤ ct.set ∧ ct.topic ≠ [] then ct else new

/-- What a line does at the side `i`. -/
def op (s : TopicLink) (i : Bool) (m : TopicMsg) : Bool × ChannelTopic :=
  (decide (dot ∈ m.sender), s.arrives i m.sender m.sent)

/-- A line on the way to one side, as the other side has sent it. -/
structure Sound (s : TopicLink) (i : Bool) (m : TopicMsg) : Prop where
  sender : m.sender = s.me (!i) ∨ ∃ cli ∈ s.clients (!i), m.sender = cli.nick
  setBy : IsWord m.sent.setBy
  setBy_length : m.sent.setBy.length ≤ NICKLEN
  topic : IsText m.sent.topic
  topic_length : m.sent.topic.length ≤ TOPICLEN

/-- A line that arrives. -/
theorem receiveTopic_eq {s : TopicLink} {i : Bool} {m : TopicMsg} (h : s.Sound i m)
    (ct : ChannelTopic) :
    receiveTopic (s.nicklen i) (s.origins i) (s.last i) s.name ct
        (topicLine m.sender s.name m.sent) =
      taken (s.op i m).1 ct (s.op i m).2 := by
  have htake : (m.sent.topic.take (topicRoom m.sender s.name m.sent)).take TOPICLEN =
      m.sent.topic.take (topicRoom m.sender s.name m.sent) :=
    List.take_of_length_le ((List.length_take_le' _ _).trans h.topic_length)
  have hname := s.name_length
  have hby := h.setBy_length
  have hnum := length_printLong_le m.sent.set
  simp only [CHANLEN] at hname
  simp only [NICKLEN] at hby
  have hargs : (topicArgs m.sender s.name m.sent).head? = some (bytes "TOPIC") ∧
      (topicArgs m.sender s.name m.sent).tail.head? = some s.name := ⟨rfl, rfl⟩
  rcases h.sender with hsender | ⟨cli, hcli, hsender⟩
  · have hdot : dot ∈ m.sender := hsender ▸ s.me_dot _
    have hlen := s.me_length (!i)
    rw [← hsender] at hlen
    simp only [SERVLEN] at hlen
    have hfind : (s.origins i).find m.sender = some (.server m.sender) := by
      have hknown := s.server_known (!i)
      rw [Bool.not_not, ← hsender] at hknown
      rw [Origins.find, if_pos hdot, if_pos hknown]
    obtain ⟨argv, hparse, hargv⟩ := packetParse_topicLine (s.last i)
      (hsender ▸ s.me_isWord _) hfind s.name_isWord h.setBy h.topic (by omega)
    rw [receiveTopic, hparse]
    dsimp only
    rw [hargv, if_pos hargs, topicArgs, serverTopic, htake, op, arrives, taken]
    simp only [hdot, decide_true, true_and]
  · have hdot : dot ∉ m.sender := hsender ▸ s.nick_dot _ cli hcli
    have hlen := s.nick_length (!i) cli hcli
    rw [← hsender] at hlen
    simp only [NICKLEN] at hlen
    have hfind : (s.origins i).find m.sender = some (.client m.sender) := by
      have hknown := s.client_known (!i) cli hcli
      rw [Bool.not_not, ← hsender] at hknown
      rw [Origins.find, if_neg hdot, if_pos hknown]
    obtain ⟨argv, hparse, hargv⟩ := packetParse_topicLine (s.last i)
      (hsender ▸ s.nick_isWord _ cli hcli) hfind s.name_isWord h.setBy h.topic (by omega)
    rw [receiveTopic, hparse]
    dsimp only
    rw [hargv, if_pos hargs, topicArgs, remoteTopic, htake, op, arrives, taken]
    simp only [hdot, decide_false, Bool.false_eq_true, false_and, if_false]

/-- What holds in every state: the lines are sound, and the first may be the burst. -/
structure Inv (s : TopicLink) (st : TopicState) : Prop where
  sound : ∀ i, ∀ m ∈ st.wire i, s.Sound i m
  tail : ∀ i, ∀ m ∈ (st.wire i).tail, dot ∉ m.sender

/-- The servers as replicas of a topic. -/
def pair (s : TopicLink) (st : TopicState) : Pair ChannelTopic (Bool × ChannelTopic) :=
  ⟨st.topic, fun i => (st.wire i).map (s.op i)⟩

/-- How a replica takes a line. -/
def take (ct : ChannelTopic) (o : Bool × ChannelTopic) : ChannelTopic := taken o.1 ct o.2

theorem Inv.start (s : TopicLink) : s.Inv s.start where
  sound i m hm := by
    have hmem : m ∈ s.burst !i := hm
    rw [burst] at hmem
    split at hmem
    · rename_i htopic
      obtain rfl := List.mem_singleton.mp hmem
      exact ⟨.inl rfl, s.setBy_isWord _ htopic, s.setBy_length _, s.topic_isText _,
        s.topic_length _⟩
    · cases hmem
  tail i m hm := by
    have hmem : m ∈ (s.burst !i).tail := hm
    rw [burst] at hmem
    split at hmem
    · cases hmem
    · cases hmem

/-- A client of the side may change the topic. -/
def Changes (s : TopicLink) : TopicEvent → Prop
  | .change i cli _ _ =>
      cli.onChannel = true ∧ (s.tmode i = true → cli.chanop = true ∨ cli.master = true)
  | .deliver _ => False

/-- The topic that a change sets. -/
def changed (s : TopicLink) (i : Bool) (cli : TopicClient) (now : ℤ) (topic : Bytes) :
    ChannelTopic :=
  ⟨cli.nick.take (s.nicklen i), now, topic.take TOPICLEN⟩

theorem localTopic_of_changes {s : TopicLink} {i : Bool} {cli : TopicClient} {now : ℤ}
    {topic : Bytes} (h : s.Changes (.change i cli now topic)) :
    localTopic (s.nicklen i) (s.tmode i) cli now topic = some (s.changed i cli now topic) := by
  obtain ⟨hon, hmode⟩ := h
  rw [localTopic, if_neg (by simp [hon]), if_neg]
  · rfl
  · rintro ⟨ht, hop, hmaster⟩
    rcases hmode ht with h | h
    · cases hop.symm.trans h
    · cases hmaster.symm.trans h

theorem localTopic_of_not_changes {s : TopicLink} {i : Bool} {cli : TopicClient} {now : ℤ}
    {topic : Bytes} (h : ¬ s.Changes (.change i cli now topic)) :
    localTopic (s.nicklen i) (s.tmode i) cli now topic = none := by
  rw [localTopic]
  split
  · rfl
  · rename_i hon
    refine if_pos ?_
    by_contra hnot
    refine h ⟨by simpa using hon, fun ht => ?_⟩
    by_contra hneither
    rw [not_or, Bool.not_eq_true, Bool.not_eq_true] at hneither
    exact hnot ⟨ht, hneither⟩

/-- A change writes the topic and sends it. -/
theorem step_of_changes {s : TopicLink} {st st' : TopicState} {i : Bool} {cli : TopicClient}
    {now : ℤ} {topic : Bytes} (h : s.Changes (.change i cli now topic))
    (hstep : s.step st (.change i cli now topic) = some st') :
    cli ∈ s.clients i ∧ IsText topic ∧ st' =
      { topic := Function.update st.topic i (s.changed i cli now topic)
        wire := Function.update st.wire (!i)
          (st.wire (!i) ++ [⟨cli.nick, s.changed i cli now topic⟩]) } := by
  rw [step] at hstep
  split at hstep
  · rename_i hand
    rw [localTopic_of_changes h] at hstep
    exact ⟨hand.1, hand.2, (Option.some.inj hstep).symm⟩
  · cases hstep

theorem step_deliver {s : TopicLink} {st st' : TopicState} {i : Bool}
    (h : s.step st (.deliver i) = some st') :
    ∃ m ms, st.wire i = m :: ms ∧ st' =
      { topic := Function.update st.topic i
          (receiveTopic (s.nicklen i) (s.origins i) (s.last i) s.name (st.topic i)
            (topicLine m.sender s.name m.sent))
        wire := Function.update st.wire i ms } := by
  rw [step] at h
  cases hwire : st.wire i with
  | nil =>
    rw [hwire] at h
    cases h
  | cons m ms =>
    rw [hwire] at h
    exact ⟨m, ms, rfl, (Option.some.inj h).symm⟩

/-- The nick of a client as far as it goes. -/
theorem isWord_take {w : Bytes} (h : IsWord w) {n : ℕ} (hn : 0 < n) : IsWord (w.take n) := by
  obtain ⟨⟨hne, hsep, hhead⟩, htext⟩ := h
  refine ⟨⟨?_, fun c hc => hsep c ((List.take_subset _ _) hc), ?_⟩,
    fun h0 => htext ((List.take_subset _ _) h0)⟩
  · rw [ne_eq, List.take_eq_nil_iff, not_or]
    exact ⟨hn.ne', hne⟩
  · rwa [List.head?_take, if_neg hn.ne']

theorem Inv.step {s : TopicLink} {st st' : TopicState} (hinv : s.Inv st) {e : TopicEvent}
    (h : s.step st e = some st') : s.Inv st' := by
  cases e with
  | deliver i =>
    obtain ⟨m, ms, hwire, rfl⟩ := step_deliver h
    have htail : ∀ m' ∈ ms, m' ∈ st.wire i ∧ dot ∉ m'.sender := by
      intro m' hm'
      refine ⟨by rw [hwire]; exact List.mem_cons_of_mem _ hm', hinv.tail i m' ?_⟩
      rw [hwire]
      exact hm'
    refine ⟨fun j m' hm' => ?_, fun j m' hm' => ?_⟩
    · dsimp only at hm'
      by_cases hj : j = i
      · subst hj
        rw [Function.update_self] at hm'
        exact hinv.sound j m' (htail m' hm').1
      · rw [Function.update_of_ne hj] at hm'
        exact hinv.sound j m' hm'
    · dsimp only at hm'
      by_cases hj : j = i
      · subst hj
        rw [Function.update_self] at hm'
        exact (htail m' (List.mem_of_mem_tail hm')).2
      · rw [Function.update_of_ne hj] at hm'
        exact hinv.tail j m' hm'
  | change i cli now topic =>
    by_cases hc : s.Changes (.change i cli now topic)
    · obtain ⟨hcli, htext, rfl⟩ := step_of_changes hc h
      have hsound : s.Sound (!i) ⟨cli.nick, s.changed i cli now topic⟩ :=
        { sender := .inr ⟨cli, by rwa [Bool.not_not], rfl⟩
          setBy := isWord_take (s.nick_isWord i cli hcli) (s.nicklen_pos i)
          setBy_length := (List.length_take_le' _ _).trans (s.nick_length i cli hcli)
          topic := fun h0 => htext ((List.take_subset _ _) h0)
          topic_length := List.length_take_le _ _ }
      refine ⟨fun j m' hm' => ?_, fun j m' hm' => ?_⟩
      · dsimp only at hm'
        by_cases hj : j = !i
        · subst hj
          rw [Function.update_self, List.mem_append, List.mem_singleton] at hm'
          rcases hm' with hm' | rfl
          · exact hinv.sound _ m' hm'
          · exact hsound
        · rw [Function.update_of_ne hj] at hm'
          exact hinv.sound j m' hm'
      · dsimp only at hm'
        by_cases hj : j = !i
        · subst hj
          rw [Function.update_self] at hm'
          have hmem : m' ∈ (st.wire !i).tail ∨ m' = ⟨cli.nick, s.changed i cli now topic⟩ := by
            cases hwire : st.wire !i with
            | nil =>
              rw [hwire] at hm'
              cases hm'
            | cons m ms =>
              rw [hwire] at hm'
              exact (List.mem_append.mp hm').imp_right List.mem_singleton.mp
          rcases hmem with hm' | rfl
          · exact hinv.tail _ m' hm'
          · exact s.nick_dot i cli hcli
        · rw [Function.update_of_ne hj] at hm'
          exact hinv.tail j m' hm'
    · rw [TopicLink.step] at h
      split at h
      · rw [localTopic_of_not_changes hc] at h
        obtain rfl := Option.some.inj h
        exact hinv
      · cases h

/-- A line that arrives is a message that arrives. -/
theorem pair_deliver {s : TopicLink} {st st' : TopicState} (hinv : s.Inv st) {i : Bool}
    (h : s.step st (.deliver i) = some st') :
    ∃ o os, (s.pair st).wire i = o :: os ∧ s.pair st' = (s.pair st).deliver take i o os := by
  obtain ⟨m, ms, hwire, rfl⟩ := step_deliver h
  have hreceive := receiveTopic_eq (hinv.sound i m (by simp [hwire])) (st.topic i)
  refine ⟨s.op i m, ms.map (s.op i), by simp [pair, hwire], ?_⟩
  rw [pair, Pair.deliver]
  congr 1
  · rw [hreceive]
    rfl
  · funext j
    by_cases hj : j = i
    · subst hj
      simp
    · simp [pair, hj]

/-- What a step that changes nothing leaves of the agreement. -/
theorem agree_step_iff {s : TopicLink} {st st' : TopicState} (hinv : s.Inv st) {e : TopicEvent}
    (he : ¬ s.Changes e) (h : s.step st e = some st') :
    (s.pair st').Agree take ↔ (s.pair st).Agree take := by
  cases e with
  | deliver i =>
    obtain ⟨o, os, hwire, hpair⟩ := pair_deliver hinv h
    rw [hpair, agree_deliver_iff hwire]
  | change i cli now topic =>
    rw [TopicLink.step] at h
    split at h
    · rw [localTopic_of_not_changes he] at h
      obtain rfl := Option.some.inj h
      exact Iff.rfl
    · cases h

theorem agree_run_iff {s : TopicLink} {st st' : TopicState} {events : List TopicEvent}
    (hinv : s.Inv st) (hevents : ∀ e ∈ events, ¬ s.Changes e)
    (hrun : Run.run s.step st events = some st') :
    (s.pair st').Agree take ↔ (s.pair st).Agree take := by
  induction events generalizing st with
  | nil =>
    obtain rfl := Option.some.inj hrun
    exact Iff.rfl
  | cons e events ih =>
    obtain ⟨st₁, hstep, hrest⟩ := Run.run_cons_eq_some.mp hrun
    rw [ih (hinv.step hstep) (fun e' he' => hevents e' (List.mem_cons_of_mem _ he')) hrest,
      agree_step_iff hinv (hevents e List.mem_cons_self) hstep]

theorem Inv.run {s : TopicLink} {st : TopicState} {events : List TopicEvent}
    (hrun : Run.run s.step s.start events = some st) : s.Inv st :=
  Run.run_induction (I := fun _ => s.Inv) (Inv.start s) (fun _ _ _ _ hinv h => hinv.step h) hrun

/-- Where nothing is on the way the servers agree if they hold the same. -/
theorem agree_iff_eq {s : TopicLink} {st : TopicState} (h : ∀ i, st.wire i = []) :
    (s.pair st).Agree take ↔ st.topic false = st.topic true := by
  rw [Pair.Agree, Pair.settled, Pair.settled, pair]
  dsimp only
  rw [h, h]
  exact Iff.rfl

/-- What is left of a topic at the side `i` when the burst of the other side has arrived. -/
def afterBurst (s : TopicLink) (i : Bool) : ChannelTopic :=
  if (s.topic !i).topic = [] then s.topic i
  else taken true (s.topic i) (s.arrives i (s.me !i) (s.topic !i))

/-- Once everything has arrived, a change has left the side that made it with what arrives of it at
the other: so it is if nothing was on the way to that side, or what the line that arrives there last
leaves of it is that. -/
def LastOk (s : TopicLink) (st : TopicState) (i : Bool) (cli : TopicClient) (now : ℤ)
    (topic : Bytes) : Prop :=
  match (st.wire i).getLast? with
  | none => s.arrives (!i) cli.nick (s.changed i cli now topic) = s.changed i cli now topic
  | some m => s.arrives (!i) cli.nick (s.changed i cli now topic) =
      taken (s.op i m).1 (s.changed i cli now topic) (s.op i m).2

/-- Only the last line makes a difference if no other is a burst, or there is one line. -/
theorem foldl_take {s : TopicLink} {st : TopicState} (hinv : s.Inv st) (i : Bool)
    (ct : ChannelTopic) :
    ((st.wire i).map (s.op i)).foldl take ct =
      match (st.wire i).getLast? with
      | none => ct
      | some m => taken (s.op i m).1 ct (s.op i m).2 := by
  have htail := hinv.tail i
  cases hwire : st.wire i with
  | nil => rfl
  | cons m ms =>
    rw [hwire] at htail
    rcases List.eq_nil_or_concat' ms with rfl | ⟨ms', m', rfl⟩
    · rfl
    · have hdot : dot ∉ m'.sender := htail m' (by simp)
      have hfalse : (s.op i m').1 = false := by simp [op, hdot]
      rw [← List.cons_append, List.map_append, List.foldl_append, List.getLast?_concat]
      change taken (s.op i m').1 _ (s.op i m').2 = taken (s.op i m').1 ct (s.op i m').2
      simp [taken, hfalse]

theorem settled_start (s : TopicLink) (i : Bool) :
    (s.pair s.start).settled take i = s.afterBurst i := by
  change ((s.burst !i).map (s.op i)).foldl take (s.topic i) = _
  rw [burst, afterBurst]
  by_cases htopic : (s.topic !i).topic = []
  · rw [if_neg (not_not.mpr htopic), if_pos htopic]
    rfl
  · rw [if_pos htopic, if_neg htopic]
    have hdot := s.me_dot !i
    simp [op, take, hdot]

/-- A change settles what the servers hold. -/
theorem agree_change_iff {s : TopicLink} {st st' : TopicState} (hinv : s.Inv st) {i : Bool}
    {cli : TopicClient} {now : ℤ} {topic : Bytes} (hc : s.Changes (.change i cli now topic))
    (h : s.step st (.change i cli now topic) = some st') :
    (s.pair st').Agree take ↔ s.LastOk st i cli now topic := by
  obtain ⟨hcli, -, rfl⟩ := step_of_changes hc h
  have hne : i ≠ !i := by simp
  have hdot := s.nick_dot i cli hcli
  have hours : (s.pair { topic := Function.update st.topic i (s.changed i cli now topic)
                         wire := Function.update st.wire (!i)
                          (st.wire (!i) ++ [⟨cli.nick, s.changed i cli now topic⟩]) }).settled
      take i = ((st.wire i).map (s.op i)).foldl take (s.changed i cli now topic) := by
    simp [Pair.settled, pair, hne]
  have htheirs : (s.pair { topic := Function.update st.topic i (s.changed i cli now topic)
                           wire := Function.update st.wire (!i)
                            (st.wire (!i) ++ [⟨cli.nick, s.changed i cli now topic⟩]) }).settled
      take (!i) = s.arrives (!i) cli.nick (s.changed i cli now topic) := by
    simp [Pair.settled, pair, hne.symm, List.foldl_append, take, taken, op, hdot]
  rw [agree_iff_settled _ i, hours, htheirs, foldl_take hinv, LastOk, eq_comm]
  cases (st.wire i).getLast? with
  | none => exact Iff.rfl
  | some m => exact Iff.rfl

/-- Once everything has arrived the servers hold the same topic exactly when the last change has
left it so, or the bursts where nothing was changed. -/
theorem topic_eq_iff (s : TopicLink) {events : List TopicEvent} {last : TopicState}
    (hrun : Run.run s.step s.start events = some last) (hwire : ∀ i, last.wire i = []) :
    ((∀ e ∈ events, ¬ s.Changes e) →
      (last.topic false = last.topic true ↔ s.afterBurst false = s.afterBurst true)) ∧
    ∀ before behind st i cli now topic,
      events = before ++ .change i cli now topic :: behind →
      s.Changes (.change i cli now topic) → (∀ e ∈ behind, ¬ s.Changes e) →
      Run.run s.step s.start before = some st →
      (last.topic false = last.topic true ↔ s.LastOk st i cli now topic) := by
  constructor
  · intro hevents
    rw [← agree_iff_eq hwire, agree_run_iff (Inv.start s) hevents hrun, Pair.Agree, settled_start,
      settled_start]
  · intro before behind st i cli now topic heq hc hbehind hbefore
    subst heq
    rw [Run.run_append, hbefore] at hrun
    obtain ⟨st', hstep, hrest⟩ := Run.run_cons_eq_some.mp hrun
    have hinv := Inv.run hbefore
    rw [← agree_iff_eq hwire, agree_run_iff (hinv.step hstep) hbehind hrest,
      agree_change_iff hinv hc hstep]

/-- Two servers without topics, with a client on the channel on each side. -/
def linkOA : TopicLink where
  name := bytes "#c"
  name_isWord := by decide +kernel
  name_length := by decide
  me := fun i => if i then bytes "b.net" else bytes "a.net"
  me_isWord := by decide +kernel
  me_dot := by decide
  me_length := by decide
  nicklen := fun _ => 30
  nicklen_pos := by decide
  nicklen_le := by decide
  tmode := fun _ => false
  clients := fun i => [⟨if i then bytes "far" else bytes "near", true, false, false⟩]
  nick_isWord := by decide +kernel
  nick_dot := by decide +kernel
  nick_length := by decide +kernel
  origins := fun _ => ⟨fun _ => true, fun _ => true⟩
  server_known _ := rfl
  client_known _ _ _ := rfl
  last := fun _ _ => 0
  topic := fun _ => ⟨[], 0, []⟩
  setBy_isWord _ h := absurd rfl h
  setBy_length := by decide
  topic_isText := by decide
  topic_length := by decide

def near : TopicClient := ⟨bytes "near", true, false, false⟩

def far : TopicClient := ⟨bytes "far", true, false, false⟩

/-- A topic that has arrived. -/
theorem topic_eq_iff_one : ∃ last,
    Run.run linkOA.step linkOA.start [.change false near 5 (bytes "hi"), .deliver true] =
      some last ∧
      last.topic false = last.topic true := by
  have hsome : (Run.run linkOA.step linkOA.start
      [.change false near 5 (bytes "hi"), .deliver true]).map (fun st =>
        ((st.wire false).length, (st.wire true).length)) = some (0, 0) := by
    decide +kernel
  obtain ⟨last, hrun, hlast⟩ := Option.map_eq_some_iff.mp hsome
  obtain ⟨hfalse, htrue⟩ := Prod.mk.inj hlast
  have hwire : ∀ i, last.wire i = [] := fun i => by
    cases i with
    | false => exact List.length_eq_zero_iff.mp hfalse
    | true => exact List.length_eq_zero_iff.mp htrue
  refine ⟨last, hrun,
    ((topic_eq_iff linkOA hrun hwire).2 [] [.deliver true] linkOA.start false near 5
    (bytes "hi") rfl ⟨rfl, fun h => absurd h (by decide)⟩ ?_ rfl).mpr ?_⟩
  · intro e he
    obtain rfl := List.mem_singleton.mp he
    exact id
  · change linkOA.arrives true near.nick (linkOA.changed false near 5 (bytes "hi")) =
      linkOA.changed false near 5 (bytes "hi")
    decide

/-- Topics that cross stay where they arrive. -/
theorem topic_crossed : ¬ ∀ (s : TopicLink) (events : List TopicEvent) (last : TopicState),
    Run.run s.step s.start events = some last → (∀ i, last.wire i = []) →
      last.topic false = last.topic true := by
  intro hall
  have hvals : (Run.run linkOA.step linkOA.start [.change false near 5 (bytes "hi"),
      .change true far 5 (bytes "yo"), .deliver true, .deliver false]).map (fun st =>
        ((st.wire false).length, (st.wire true).length, st.topic false, st.topic true)) =
      some (0, 0, ⟨bytes "far", 5, bytes "yo"⟩, ⟨bytes "near", 5, bytes "hi"⟩) := by
    decide
  obtain ⟨last, hrun, hlast⟩ := Option.map_eq_some_iff.mp hvals
  simp only [Prod.mk.injEq] at hlast
  obtain ⟨hfalse, htrue, hours, htheirs⟩ := hlast
  have heq := hall linkOA _ last hrun fun i => by
    cases i with
    | false => exact List.length_eq_zero_iff.mp hfalse
    | true => exact List.length_eq_zero_iff.mp htrue
  rw [hours, htheirs] at heq
  exact absurd heq (by decide)

end TopicLink

end Ithildin
