import Ithildin.CString
import Ithildin.Lib.Census
import Ithildin.Lib.Run
import Ithildin.Lib.Stailq
import Mathlib.Data.List.Range
import Mathlib.Tactic.Common

/-!
# The send queues

`create_sendq_block`, `sendq_push` and `sendq_pop` of `send.c`, `sendq_flush` and
`destroy_connection` of `connection.c`, with the memory they take and give back.

* `Sends`: the blocks, the items and the connections, with what has been pushed to a connection and
  what its socket has taken;
* `Sound`: what holds between the calls, given the items on each queue;
* `Streamed`: a queue holds what its socket has not yet taken of what was pushed;
* `stream_of_run`: so it is in every run.
-/

namespace Ithildin

/-- `struct sendq_block`. -/
structure SendqBlock where
  msg : Bytes
  refs : ℤ

/-- `struct sendq_item`. -/
structure SendqItem where
  block : ℕ
  offset : ℕ

/-- What the queue does not change of a connection: the flags, whether there is a client or a server
(`cli` or `srv`), the limit of the class and the host. -/
structure ConnInfo where
  host : Bytes
  writeable : Bool
  nosendq : Bool
  owned : Bool
  classSendq : ℤ

/-- `connection_t`. -/
structure SendConn where
  info : ConnInfo
  sendqItems : ℤ
  sendq : Stailq ℕ
  sent : ℕ
  psent : ℕ

/-- Memory, every address of which is used once, and what has happened: the message each block was
made with, the blocks that have been pushed, and for each connection the messages pushed to it, one
after the other, and the bytes its socket has taken. `fault` is set by an access that is not one
to live memory. -/
structure Sends where
  blocks : ℕ → Option SendqBlock
  items : ℕ → Option SendqItem
  conns : ℕ → Option SendConn
  fresh : ℕ
  fault : Bool
  made : ℕ → Option Bytes
  used : ℕ → Bool
  pushed : ℕ → Bytes
  wire : ℕ → Bytes

/-- What the rest of the program sends. -/
inductive SendCall
  | create (msg : Bytes)
  | push (b c : ℕ)

/-- What happens while `destroy_client` or `destroy_server` takes the owner of a connection out: the
messages sent, the answers of `socket_write` to the last `sendq_flush`, and to the closing line. -/
structure Leaving where
  calls : List SendCall
  results : List ℤ
  last : ℤ

inductive SendAction
  /-- A new connection, all zeroes but for what `info` says -/
  | accept (info : ConnInfo)
  | call (k : SendCall)
  /-- Anything that changes a connection and not its queue -/
  | adjust (c : ℕ) (info : ConnInfo)
  /-- `sendq_flush`, with the answers of `socket_write` -/
  | flush (c : ℕ) (results : List ℤ) (l : Leaving)
  /-- `destroy_connection`, or `destroy_client` or `destroy_server` of its owner -/
  | destroy (c : ℕ) (reason : Bytes) (l : Leaving)

/-- The answer of `socket_write`, which takes no more than it is given. -/
def socketWrite (buf : Bytes) (r : ℤ) : ℤ := min r buf.length

/-- The line `destroy_connection` writes, cut by `snprintf`. -/
def closingLine (host reason : Bytes) : Bytes :=
  (bytes "\r\nERROR :Closing Link: " ++ host ++ bytes " (" ++ reason ++ bytes ")\r\n").take 511

/-- The reason `sendq_flush` gives. -/
def sendQExceeded : Bytes := bytes "SendQ Exceeded"

namespace Sends

def start : Sends :=
  { blocks := fun _ => none
    items := fun _ => none
    conns := fun _ => none
    fresh := 0
    fault := false
    made := fun _ => none
    used := fun _ => false
    pushed := fun _ => []
    wire := fun _ => [] }

variable (s : Sends) (c : ℕ)

def crash : Sends := { s with fault := true }

def putConn (cp : SendConn) : Sends := { s with conns := Function.update s.conns c (some cp) }

def putItem (i : ℕ) (sip : SendqItem) : Sends :=
  { s with items := Function.update s.items i (some sip) }

/-- The socket of the connection has taken some bytes. -/
def took (bs : Bytes) : Sends := { s with wire := Function.update s.wire c (s.wire c ++ bs) }

def accept (info : ConnInfo) : Sends :=
  { s with
    conns := Function.update s.conns s.fresh
      (some { info := info, sendqItems := 0, sendq := .zeroed, sent := 0, psent := 0 })
    fresh := s.fresh + 1 }

def createSendqBlock (msg : Bytes) : Sends :=
  { s with
    blocks := Function.update s.blocks s.fresh (some { msg := msg, refs := 0 })
    fresh := s.fresh + 1
    made := Function.update s.made s.fresh (some msg) }

def sendqPush (b : ℕ) : Sends :=
  match s.blocks b, s.conns c with
  | some bp, some cp =>
    let sip := s.fresh
    let sendq := if cp.sendq.first.isNone then some (cp.sendq.insertHead sip)
      else cp.sendq.insertTail sip
    match sendq with
    | none => s.crash
    | some sendq =>
      { s with
        blocks := Function.update s.blocks b (some { bp with refs := bp.refs + 1 })
        items := Function.update s.items sip (some { block := b, offset := 0 })
        conns := Function.update s.conns c
          (some { cp with sendq := sendq, sendqItems := cp.sendqItems + 1 })
        fresh := s.fresh + 1
        used := Function.update s.used b true
        pushed := Function.update s.pushed c (s.pushed c ++ bp.msg) }
  | _, _ => s.crash

/-- The first item of a queue, with its block. -/
def front (cp : SendConn) : Option (ℕ × SendqItem × SendqBlock) := do
  let i ← cp.sendq.first
  let sip ← s.items i
  let bp ← s.blocks sip.block
  some (i, sip, bp)

def sendqPop : Sends :=
  match s.conns c with
  | none => s.crash
  | some cp =>
    match s.front cp, cp.sendq.removeHead with
    | some (i, sip, bp), some sendq =>
      { s with
        items := Function.update s.items i none
        blocks := Function.update s.blocks sip.block
          (if bp.refs - 1 = 0 then none else some { bp with refs := bp.refs - 1 })
        conns := Function.update s.conns c
          (some { cp with sendq := sendq, sendqItems := cp.sendqItems - 1 }) }
    | _, _ => s.crash

/-- The loop of `sendq_flush`. Once there are no more answers the socket takes nothing. -/
def writeItems : List ℤ → Sends → Sends
  | [], s => s
  | r :: results, s =>
    match s.conns c with
    | none => s.crash
    | some cp =>
      if cp.sendq.first.isNone then s
      else
        match s.front cp with
        | none => s.crash
        | some (i, sip, bp) =>
          let buf := bp.msg.drop sip.offset
          let ret := socketWrite buf r
          if ret ≤ 0 then s
          else if ret ≠ buf.length then
            (s.took c (buf.take ret.toNat)).putItem i
              { sip with offset := sip.offset + ret.toNat }
          else
            writeItems results (((s.took c buf).putConn c
              { cp with sent := cp.sent + bp.msg.length, psent := cp.psent + 1 }).sendqPop c)

/-- `sendq_flush`, and whether the connection still exists. -/
def sendqFlush (destroy : Sends → Option Sends) (results : List ℤ) : Option (Bool × Sends) :=
  match s.conns c with
  | none => some (false, s.crash)
  | some cp =>
    let s' := if cp.info.writeable then writeItems c results s else s
    match s'.conns c with
    | none => some (false, s'.crash)
    | some cp =>
      if cp.info.nosendq = true ∧ cp.sendqItems = 0 then
        some (true, s'.putConn c { cp with info := { cp.info with nosendq := false } })
      else if cp.info.nosendq = false ∧ cp.sendqItems > cp.info.classSendq then
        (destroy s').map fun s => (false, s)
      else some (true, s')

/-- `while (STAILQ_FIRST(&c->sendq) != NULL) sendq_pop(c)`, as many times at most as given. -/
def popItems : ℕ → Sends → Sends
  | 0, s => s.crash
  | n + 1, s =>
    match s.conns c with
    | none => s.crash
    | some cp => if cp.sendq.first.isNone then s else popItems n (s.sendqPop c)

/-- `destroy_connection` where there is neither a client nor a server. -/
def closeConnection (reason : Bytes) (r : ℤ) : Sends :=
  match s.conns c with
  | none => s.crash
  | some cp =>
    let s' :=
      if cp.sendq.first.isNone ∧ reason ≠ [] then
        let msg := closingLine cp.info.host reason
        s.took c (msg.take (socketWrite msg r).toNat)
      else popItems c (cp.sendqItems.toNat + 1) s
    { s' with conns := Function.update s'.conns c none }

def sendCall : SendCall → Option Sends
  | .create msg => some (s.createSendqBlock msg)
  | .push b c => if (s.blocks b).isSome ∧ (s.conns c).isSome then some (s.sendqPush c b) else none

def disown : Sends :=
  match s.conns c with
  | none => s.crash
  | some cp => s.putConn c { cp with info := { cp.info with owned := false } }

/-- `destroy_client` or `destroy_server` of the owner of a connection, as far as the connection
goes. -/
def destroyOwner (msg : Bytes) (l : Leaving) : Option Sends :=
  (Run.run sendCall s l.calls).bind fun s =>
    ((s.disown c).sendqFlush c (fun s => some (s.closeConnection c sendQExceeded l.last))
      l.results).map fun (alive, s) => if alive then s.closeConnection c msg l.last else s

def destroyConnection (reason : Bytes) (l : Leaving) : Option Sends :=
  match s.conns c with
  | none => some s.crash
  | some cp =>
    if cp.info.owned then s.destroyOwner c reason l else some (s.closeConnection c reason l.last)

/-- A call is made on a connection that exists, and a block is pushed that has not been freed. -/
def step : SendAction → Option Sends
  | .accept info => some (s.accept info)
  | .call k => s.sendCall k
  | .adjust c info => (s.conns c).map fun cp => s.putConn c { cp with info := info }
  | .flush c results l =>
    if (s.conns c).isSome then
      (s.sendqFlush c (fun s => s.destroyConnection c sendQExceeded l) results).map (·.2)
    else none
  | .destroy c reason l => if (s.conns c).isSome then s.destroyConnection c reason l else none

/-- How many items refer to a block. -/
def refs (b : ℕ) : ℕ := Census.count (fun sip => sip.block == b) s.items (List.range s.fresh)

/-- What is left of the message of an item. -/
def itemRest (i : ℕ) : Bytes :=
  (s.items i).elim [] fun sip => ((s.made sip.block).getD []).drop sip.offset

/-- What is left of the messages of some items. -/
def rest (l : List ℕ) : Bytes := l.flatMap s.itemRest

/-- The memory is in order, and `qs` are the items on each queue. -/
structure Sound (qs : ℕ → List ℕ) : Prop where
  fault : s.fault = false
  holds : ∀ {c cp}, s.conns c = some cp → cp.sendq.Holds (qs c)
  count : ∀ {c cp}, s.conns c = some cp → cp.sendqItems = (qs c).length
  gone : ∀ {c}, s.conns c = none → qs c = []
  item : ∀ {c i}, i ∈ qs c → (s.items i).isSome
  owner : ∀ {c c' i}, i ∈ qs c → i ∈ qs c' → c = c'
  queued : ∀ {i sip}, s.items i = some sip → ∃ c, i ∈ qs c
  live : ∀ {b bp}, s.blocks b = some bp →
    s.made b = some bp.msg ∧ bp.refs = s.refs b ∧ (s.used b = true ↔ 0 < s.refs b)
  freed : ∀ {b}, s.blocks b = none → s.refs b = 0 ∧ (s.made b ≠ none → s.used b = true)
  fresh : ∀ {n}, s.fresh ≤ n → s.items n = none ∧ s.blocks n = none ∧ s.conns n = none ∧
    s.made n = none ∧ s.used n = false ∧ s.pushed n = [] ∧ s.wire n = []

/-- What the socket of a connection that is gone has taken: the beginning of what was pushed, or all
of it and then the closing line, as far as it got. -/
def Ended (pushed wire : Bytes) : Prop :=
  ∃ sent tail, wire = sent ++ tail ∧ sent <+: pushed ∧
    (tail ≠ [] → sent = pushed ∧ ∃ host reason, tail <+: closingLine host reason)

/-- The queue of a connection is what its socket is still to take. -/
structure Streamed (qs : ℕ → List ℕ) : Prop where
  live : ∀ {c cp}, s.conns c = some cp → s.pushed c = s.wire c ++ s.rest (qs c)
  gone : ∀ {c}, s.conns c = none → Ended (s.pushed c) (s.wire c)

section
variable {s c} {qs : ℕ → List ℕ} {cp cp' : SendConn} {b i : ℕ} {l : List ℕ} {bp : SendqBlock}

/-! ### Items and references -/

/-- A queue with one item less or more. -/
theorem mem_update_iff {c c' : ℕ} : i ∈ Function.update qs c l c' ↔
    (c' = c ∧ i ∈ l) ∨ (c' ≠ c ∧ i ∈ qs c') := by
  by_cases h : c' = c
  · subst h
    simp
  · simp [h]

/-- Writing an item that has its place in memory. -/
theorem refs_update {s' : Sends} (o : Option SendqItem) (hfresh : s'.fresh = s.fresh)
    (hitems : s'.items = Function.update s.items i o) (hi : i < s.fresh) (b : ℕ) :
    s'.refs b + Census.unit (fun sip => (sip.block == b).toNat) (s.items i) =
      s.refs b + Census.unit (fun sip => (sip.block == b).toNat) o := by
  rw [refs, refs, hfresh, hitems]
  exact Census.total_update List.nodup_range (List.mem_range.mpr hi)

/-- A new item. -/
theorem refs_concat {s' : Sends} (o : Option SendqItem) (hfresh : s'.fresh = s.fresh + 1)
    (hitems : s'.items = Function.update s.items s.fresh o) (b : ℕ) :
    s'.refs b = s.refs b + Census.unit (fun sip => (sip.block == b).toNat) o := by
  rw [refs, refs, hfresh, hitems, List.range_succ, Census.count, Census.total_concat,
    Function.update_self, Census.total_update_of_notMem fun h => (List.mem_range.mp h).false]
  rfl

theorem Sound.lt_fresh (h : s.Sound qs) (hc : s.conns c = some cp) : c < s.fresh := by
  by_contra hle
  rw [(h.fresh (not_lt.mp hle)).2.2.1] at hc
  cases hc

theorem Sound.item_lt (h : s.Sound qs) (hi : (s.items i).isSome) : i < s.fresh := by
  by_contra hle
  rw [(h.fresh (not_lt.mp hle)).1] at hi
  cases hi

theorem Sound.block_lt (h : s.Sound qs) (hb : s.blocks b = some bp) : b < s.fresh := by
  by_contra hle
  rw [(h.fresh (not_lt.mp hle)).2.1] at hb
  cases hb

/-- The block of an item is there. -/
theorem Sound.block (h : s.Sound qs) {sip : SendqItem} (hi : s.items i = some sip) :
    ∃ bp, s.blocks sip.block = some bp := by
  refine Option.ne_none_iff_exists'.mp fun hnone => ?_
  have hzero : ∀ j ∈ List.range s.fresh, ∀ sip', s.items j = some sip' →
      (sip'.block == sip.block) = false := Census.count_eq_zero_iff.mp (h.freed hnone).1
  have hlt : i < s.fresh := h.item_lt (by rw [hi]; rfl)
  have hfalse := hzero i (List.mem_range.mpr hlt) sip hi
  rw [beq_self_eq_true] at hfalse
  cases hfalse

/-- The first item of a queue that is not empty. -/
theorem Sound.front (h : s.Sound qs) (hc : s.conns c = some cp) (hq : qs c = i :: l) :
    ∃ sip bp, s.front cp = some (i, sip, bp) ∧ s.items i = some sip ∧
      s.blocks sip.block = some bp := by
  have hfirst : cp.sendq.first = some i := by rw [(h.holds hc).first_eq, hq]; rfl
  obtain ⟨sip, hsip⟩ := Option.isSome_iff_exists.mp (h.item (hq ▸ List.mem_cons_self : i ∈ qs c))
  obtain ⟨bp, hbp⟩ := h.block hsip
  refine ⟨sip, bp, ?_, hsip, hbp⟩
  rw [Sends.front, hfirst, Option.bind_eq_bind, Option.bind_some, hsip, Option.bind_eq_bind,
    Option.bind_some, hbp, Option.bind_eq_bind, Option.bind_some]

/-- `STAILQ_EMPTY`. -/
theorem Sound.isNone_first (h : s.Sound qs) (hc : s.conns c = some cp) :
    cp.sendq.first.isNone = true ↔ qs c = [] := by
  rw [(h.holds hc).first_eq, Option.isNone_iff_eq_none, List.head?_eq_none_iff]

theorem Sound.isNone_first_of_cons (h : s.Sound qs) (hc : s.conns c = some cp) {i : ℕ} {l : List ℕ}
    (hq : qs c = i :: l) : cp.sendq.first.isNone = false :=
  Bool.eq_false_iff.mpr fun hnone => by
    rw [(h.isNone_first hc).mp hnone] at hq
    cases hq

/-! ### Operations that leave the queues -/

theorem sound_start : start.Sound fun _ => [] := by
  constructor <;> simp [start, refs, Census.count, Census.total]

theorem streamed_start : start.Streamed fun _ => [] := by
  constructor
  · intro c cp hc
    cases hc
  · exact fun _ => ⟨[], [], rfl, List.nil_prefix, fun h => absurd rfl h⟩

/-- Just the connections have been written over, those that exist with the same queues. -/
theorem Sound.putConn (h : s.Sound qs) (hc : s.conns c = some cp) (hq : cp'.sendq = cp.sendq)
    (hn : cp'.sendqItems = cp.sendqItems) : (s.putConn c cp').Sound qs := by
  have hconn : ∀ {c' cp''}, (s.putConn c cp').conns c' = some cp'' →
      ∃ cp₀, s.conns c' = some cp₀ ∧ cp''.sendq = cp₀.sendq ∧ cp''.sendqItems = cp₀.sendqItems := by
    intro c' cp'' hc'
    rcases Census.update_eq_iff.mp hc' with ⟨rfl, ⟨⟩⟩ | ⟨-, hc'⟩
    · exact ⟨cp, hc, hq, hn⟩
    · exact ⟨cp'', hc', rfl, rfl⟩
  have hnone : ∀ {c'}, (s.putConn c cp').conns c' = none → s.conns c' = none := by
    intro c' hc'
    rcases Census.update_eq_iff.mp hc' with ⟨-, ⟨⟩⟩ | ⟨-, hc'⟩
    exact hc'
  constructor
  · exact h.fault
  · intro c' cp'' hc'
    obtain ⟨cp₀, hc₀, hq₀, -⟩ := hconn hc'
    exact hq₀ ▸ h.holds hc₀
  · intro c' cp'' hc'
    obtain ⟨cp₀, hc₀, -, hn₀⟩ := hconn hc'
    exact hn₀.trans (h.count hc₀)
  · exact fun hc' => h.gone (hnone hc')
  · exact h.item
  · exact h.owner
  · exact h.queued
  · exact h.live
  · exact h.freed
  · intro n hn'
    obtain ⟨hi, hb, hconns, hrest⟩ := h.fresh hn'
    have hne : n ≠ c := ((h.lt_fresh hc).trans_le hn').ne'
    exact ⟨hi, hb, (Function.update_of_ne hne _ _).trans hconns, hrest⟩

theorem Streamed.putConn (h : s.Streamed qs) (hc : s.conns c = some cp) (cp' : SendConn) :
    (s.putConn c cp').Streamed qs := by
  constructor
  · intro c' cp'' hc'
    rcases Census.update_eq_iff.mp hc' with ⟨rfl, -⟩ | ⟨-, hc'⟩
    · exact h.live hc
    · exact h.live hc'
  · intro c' hc'
    rcases Census.update_eq_iff.mp hc' with ⟨-, ⟨⟩⟩ | ⟨-, hc'⟩
    exact h.gone hc'

theorem Sound.took (h : s.Sound qs) (hc : s.conns c = some cp) (bs : Bytes) :
    (s.took c bs).Sound qs := by
  refine { h with fresh := ?_ }
  intro n hn
  obtain ⟨hi, hb, hconns, hmade, hused, hpushed, hwire⟩ := h.fresh hn
  have hne : n ≠ c := ((h.lt_fresh hc).trans_le hn).ne'
  exact ⟨hi, hb, hconns, hmade, hused, hpushed, (Function.update_of_ne hne _ _).trans hwire⟩

/-- A part of the first item has been written. -/
theorem Sound.putItem (h : s.Sound qs) {sip : SendqItem} (hi : s.items i = some sip) (n : ℕ) :
    (s.putItem i { sip with offset := n }).Sound qs := by
  have hlt : i < s.fresh := h.item_lt (by rw [hi]; rfl)
  have hrefs : ∀ b, (s.putItem i { sip with offset := n }).refs b = s.refs b := by
    intro b
    have hupdate := @refs_update s i (s.putItem i { sip with offset := n })
      (some { sip with offset := n }) rfl rfl hlt b
    rw [hi] at hupdate
    exact Nat.add_right_cancel hupdate
  constructor
  · exact h.fault
  · exact h.holds
  · exact h.count
  · exact h.gone
  · intro c j hj
    show (Function.update s.items i _ j).isSome
    by_cases hji : j = i
    · rw [hji, Function.update_self]
      rfl
    · rw [Function.update_of_ne hji]
      exact h.item hj
  · exact h.owner
  · intro j sip' hj
    rcases Census.update_eq_iff.mp hj with ⟨rfl, -⟩ | ⟨-, hj⟩
    · exact h.queued hi
    · exact h.queued hj
  · intro b bp hb
    rw [hrefs]
    exact h.live hb
  · intro b hb
    rw [hrefs]
    exact h.freed hb
  · intro m hm
    obtain ⟨hitems, hothers⟩ := h.fresh hm
    exact ⟨(Function.update_of_ne (hlt.trans_le hm).ne' _ _).trans hitems, hothers⟩

theorem Sound.accept (h : s.Sound qs) (info : ConnInfo) : (s.accept info).Sound qs := by
  obtain ⟨hitem, hblock, hconn, hmade, hused, hpushed, hwire⟩ := h.fresh (le_refl s.fresh)
  have hrefs : ∀ b, (s.accept info).refs b = s.refs b := fun b =>
    refs_concat none rfl (by rw [← hitem, Function.update_eq_self]; rfl) b
  constructor
  · exact h.fault
  · intro c cp hc
    rcases Census.update_eq_iff.mp hc with ⟨rfl, ⟨⟩⟩ | ⟨-, hc⟩
    · rw [h.gone hconn]
      exact Stailq.holds_zeroed
    · exact h.holds hc
  · intro c cp hc
    rcases Census.update_eq_iff.mp hc with ⟨rfl, ⟨⟩⟩ | ⟨-, hc⟩
    · rw [h.gone hconn]
      rfl
    · exact h.count hc
  · intro c hc
    rcases Census.update_eq_iff.mp hc with ⟨-, ⟨⟩⟩ | ⟨-, hc⟩
    exact h.gone hc
  · exact h.item
  · exact h.owner
  · exact h.queued
  · intro b bp hb
    rw [hrefs]
    exact h.live hb
  · intro b hb
    rw [hrefs]
    exact h.freed hb
  · intro n hn
    have hne : n ≠ s.fresh := by
      rintro rfl
      exact absurd hn (Nat.not_succ_le_self _)
    obtain ⟨hi, hb, hc, hothers⟩ := h.fresh (Nat.le_of_succ_le hn)
    exact ⟨hi, hb, (Function.update_of_ne hne _ _).trans hc, hothers⟩

theorem Streamed.accept (hs : s.Sound qs) (h : s.Streamed qs) (info : ConnInfo) :
    (s.accept info).Streamed qs := by
  obtain ⟨-, -, hconn, -, -, hpushed, hwire⟩ := hs.fresh (le_refl s.fresh)
  constructor
  · intro c cp hc
    rcases Census.update_eq_iff.mp hc with ⟨rfl, -⟩ | ⟨-, hc⟩
    · show s.pushed s.fresh = s.wire s.fresh ++ s.rest (qs s.fresh)
      rw [hpushed, hwire, hs.gone hconn]
      rfl
    · exact h.live hc
  · intro c hc
    rcases Census.update_eq_iff.mp hc with ⟨-, ⟨⟩⟩ | ⟨-, hc⟩
    exact h.gone hc

/-! ### Blocks and pushes -/

theorem rest_congr {s' : Sends} (h : ∀ i ∈ l, s'.itemRest i = s.itemRest i) :
    s'.rest l = s.rest l := List.flatMap_congr h

theorem Sound.itemRest (h : s.Sound qs) {sip : SendqItem} (hi : s.items i = some sip)
    (hb : s.blocks sip.block = some bp) : s.itemRest i = bp.msg.drop sip.offset := by
  rw [Sends.itemRest, hi, Option.elim_some, (h.live hb).1, Option.getD_some]

theorem Sound.create (h : s.Sound qs) (msg : Bytes) : (s.createSendqBlock msg).Sound qs := by
  obtain ⟨hitem, hblock, hconn, hmade, hused, -, -⟩ := h.fresh (le_refl s.fresh)
  have hrefs : ∀ b, (s.createSendqBlock msg).refs b = s.refs b := fun b =>
    refs_concat none rfl (by rw [← hitem, Function.update_eq_self]; rfl) b
  constructor
  · exact h.fault
  · exact h.holds
  · exact h.count
  · exact h.gone
  · exact h.item
  · exact h.owner
  · exact h.queued
  · intro b bp hb
    rw [hrefs]
    rcases Census.update_eq_iff.mp hb with ⟨rfl, ⟨⟩⟩ | ⟨hne, hb⟩
    · refine ⟨Function.update_self .., ?_, ?_⟩
      · rw [(h.freed hblock).1]
        rfl
      · show s.used s.fresh = true ↔ _
        rw [hused, (h.freed hblock).1]
        decide
    · obtain ⟨hmade', hothers⟩ := h.live hb
      exact ⟨(Function.update_of_ne hne _ _).trans hmade', hothers⟩
  · intro b hb
    rw [hrefs]
    rcases Census.update_eq_iff.mp hb with ⟨-, ⟨⟩⟩ | ⟨hne, hb⟩
    refine ⟨(h.freed hb).1, fun hm => (h.freed hb).2 fun hnone => hm ?_⟩
    exact (Function.update_of_ne hne _ _).trans hnone
  · intro n hn
    have hne : n ≠ s.fresh := by
      rintro rfl
      exact absurd hn (Nat.not_succ_le_self _)
    obtain ⟨hi, hb, hc, hm, hothers⟩ := h.fresh (Nat.le_of_succ_le hn)
    exact ⟨hi, (Function.update_of_ne hne _ _).trans hb, hc,
      (Function.update_of_ne hne _ _).trans hm, hothers⟩

theorem Streamed.create (hs : s.Sound qs) (h : s.Streamed qs) (msg : Bytes) :
    (s.createSendqBlock msg).Streamed qs := by
  refine ⟨fun {c cp} hc => (h.live hc).trans ?_, h.gone⟩
  refine congrArg (s.wire c ++ ·) (rest_congr fun i hi => ?_).symm
  obtain ⟨sip, hsip⟩ := Option.isSome_iff_exists.mp (hs.item hi)
  obtain ⟨bp, hbp⟩ := hs.block hsip
  have hne : sip.block ≠ s.fresh := (hs.block_lt hbp).ne
  rw [hs.itemRest hsip hbp, Sends.itemRest]
  show (s.items i).elim [] (fun sip =>
    ((Function.update s.made s.fresh (some msg) sip.block).getD []).drop sip.offset) = _
  rw [hsip, Option.elim_some, Function.update_of_ne hne, (hs.live hbp).1, Option.getD_some]

/-- `sendq_push` puts a new item last on the queue. -/
theorem Sound.sendqPush_eq (h : s.Sound qs) (hb : s.blocks b = some bp) (hc : s.conns c = some cp) :
    ∃ sendq : Stailq ℕ, sendq.Holds (qs c ++ [s.fresh]) ∧ s.sendqPush c b =
      { s with
        blocks := Function.update s.blocks b (some { bp with refs := bp.refs + 1 })
        items := Function.update s.items s.fresh (some { block := b, offset := 0 })
        conns := Function.update s.conns c
          (some { cp with sendq := sendq, sendqItems := cp.sendqItems + 1 })
        fresh := s.fresh + 1
        used := Function.update s.used b true
        pushed := Function.update s.pushed c (s.pushed c ++ bp.msg) } := by
  have hfresh : s.fresh ∉ qs c := fun hin => (h.item_lt (h.item hin)).false
  have hholds := h.holds hc
  by_cases hq : qs c = []
  · rw [hq] at hholds ⊢
    refine ⟨cp.sendq.insertHead s.fresh, hholds.insertHead s.fresh, ?_⟩
    rw [sendqPush, hb, hc]
    simp only [(h.isNone_first hc).mpr hq, if_true]
  · obtain ⟨sendq, hsendq, hholds'⟩ := hholds.insertTail hq hfresh
    refine ⟨sendq, hholds', ?_⟩
    have hfalse : cp.sendq.first.isNone = false :=
      Bool.eq_false_iff.mpr fun hnone => hq ((h.isNone_first hc).mp hnone)
    rw [sendqPush, hb, hc]
    simp only [hfalse, Bool.false_eq_true, if_false, hsendq]

/-- The queue of a connection changes together with its count; those of the others stay. -/
structure Requeued (s : Sends) (qs : ℕ → List ℕ) (c : ℕ) (cp : SendConn) (l : List ℕ) : Prop where
  holds : ∀ {c' cp'}, Function.update s.conns c (some cp) c' = some cp' →
    cp'.sendq.Holds (Function.update qs c l c')
  count : ∀ {c' cp'}, Function.update s.conns c (some cp) c' = some cp' →
    cp'.sendqItems = (Function.update qs c l c').length
  gone : ∀ {c'}, Function.update s.conns c (some cp) c' = none → Function.update qs c l c' = []

theorem Sound.requeue (h : s.Sound qs) (hholds : cp'.sendq.Holds l)
    (hcount : cp'.sendqItems = l.length) : Requeued s qs c cp' l := by
  constructor
  · intro d dp hd
    rcases Census.update_eq_iff.mp hd with ⟨rfl, ⟨⟩⟩ | ⟨hne, hd⟩
    · rw [Function.update_self]
      exact hholds
    · rw [Function.update_of_ne hne]
      exact h.holds hd
  · intro d dp hd
    rcases Census.update_eq_iff.mp hd with ⟨rfl, ⟨⟩⟩ | ⟨hne, hd⟩
    · rw [Function.update_self]
      exact hcount
    · rw [Function.update_of_ne hne]
      exact h.count hd
  · intro d hd
    rcases Census.update_eq_iff.mp hd with ⟨-, ⟨⟩⟩ | ⟨hne, hd⟩
    rw [Function.update_of_ne hne]
    exact h.gone hd

theorem Sound.sendqPush (h : s.Sound qs) (hb : s.blocks b = some bp) (hc : s.conns c = some cp) :
    (s.sendqPush c b).Sound (Function.update qs c (qs c ++ [s.fresh])) := by
  obtain ⟨sendq, hholds, heq⟩ := h.sendqPush_eq hb hc
  have hrefs : ∀ b', (s.sendqPush c b).refs b' = s.refs b' + (b == b').toNat := by
    rw [heq]
    exact refs_concat (some { block := b, offset := 0 }) rfl rfl
  have hrequeued := @Sound.requeue s c qs
    { cp with sendq := sendq, sendqItems := cp.sendqItems + 1 } _ h hholds (by
      rw [List.length_append, Int.natCast_add, ← h.count hc]
      rfl)
  rw [heq] at hrefs ⊢
  constructor
  · exact h.fault
  · exact hrequeued.holds
  · exact hrequeued.count
  · exact hrequeued.gone
  · intro c' i hi
    show (Function.update s.items s.fresh _ i).isSome
    by_cases hif : i = s.fresh
    · rw [hif, Function.update_self]
      rfl
    · rw [Function.update_of_ne hif]
      rcases mem_update_iff.mp hi with ⟨-, hi⟩ | ⟨-, hi⟩
      · rcases List.mem_append.mp hi with hi | hi
        · exact h.item hi
        · exact absurd (List.mem_singleton.mp hi) hif
      · exact h.item hi
  · intro c₁ c₂ i h₁ h₂
    have hold : ∀ {c'}, i ∈ Function.update qs c (qs c ++ [s.fresh]) c' →
        i ∈ qs c' ∨ (c' = c ∧ i = s.fresh) := by
      intro c' hi
      rcases mem_update_iff.mp hi with ⟨rfl, hi⟩ | ⟨-, hi⟩
      · rcases List.mem_append.mp hi with hi | hi
        · exact .inl hi
        · exact .inr ⟨rfl, List.mem_singleton.mp hi⟩
      · exact .inl hi
    rcases hold h₁ with hi₁ | ⟨rfl, hi₁⟩ <;> rcases hold h₂ with hi₂ | ⟨rfl, hi₂⟩
    · exact h.owner hi₁ hi₂
    · exact absurd (h.item_lt (h.item hi₁)) (hi₂ ▸ lt_irrefl _)
    · exact absurd (h.item_lt (h.item hi₂)) (hi₁ ▸ lt_irrefl _)
    · rfl
  · intro i sip hi
    rcases Census.update_eq_iff.mp hi with ⟨rfl, -⟩ | ⟨-, hi⟩
    · exact ⟨c,
        mem_update_iff.mpr (.inl ⟨rfl, List.mem_append_right _ (List.mem_singleton_self _)⟩)⟩
    · obtain ⟨c', hc'⟩ := h.queued hi
      refine ⟨c', mem_update_iff.mpr ?_⟩
      by_cases hcc : c' = c
      · exact .inl ⟨hcc, List.mem_append_left _ (hcc ▸ hc')⟩
      · exact .inr ⟨hcc, hc'⟩
  · intro b' bp' hb'
    rw [hrefs]
    rcases Census.update_eq_iff.mp hb' with ⟨rfl, ⟨⟩⟩ | ⟨hne, hb'⟩
    · obtain ⟨hmade, hcount, -⟩ := h.live hb
      refine ⟨hmade, ?_, iff_of_true (Function.update_self ..) ?_⟩
      · rw [beq_self_eq_true, Int.natCast_add, ← hcount]
        rfl
      · rw [beq_self_eq_true]
        exact Nat.succ_pos _
    · obtain ⟨hmade, hcount, hused⟩ := h.live hb'
      rw [beq_false_of_ne (Ne.symm hne)]
      refine ⟨hmade, hcount, Iff.trans ?_ hused⟩
      exact Eq.to_iff (congrArg (· = true) (Function.update_of_ne hne _ _))
  · intro b' hb'
    rw [hrefs]
    rcases Census.update_eq_iff.mp hb' with ⟨-, ⟨⟩⟩ | ⟨hne, hb'⟩
    rw [beq_false_of_ne (Ne.symm hne)]
    exact ⟨(h.freed hb').1, fun hm => (Function.update_of_ne hne _ _).trans ((h.freed hb').2 hm)⟩
  · intro n hn
    have hlt : s.fresh < n := hn
    have hnf : n ≠ s.fresh := hlt.ne'
    have hnb : n ≠ b := ((h.block_lt hb).trans hlt).ne'
    have hnc : n ≠ c := ((h.lt_fresh hc).trans hlt).ne'
    obtain ⟨hi, hb', hc', hm, hu, hp, hw⟩ := h.fresh hlt.le
    exact ⟨(Function.update_of_ne hnf _ _).trans hi, (Function.update_of_ne hnb _ _).trans hb',
      (Function.update_of_ne hnc _ _).trans hc', hm, (Function.update_of_ne hnb _ _).trans hu,
      (Function.update_of_ne hnc _ _).trans hp, hw⟩

theorem Streamed.sendqPush (hs : s.Sound qs) (h : s.Streamed qs) (hb : s.blocks b = some bp)
    (hc : s.conns c = some cp) :
    (s.sendqPush c b).Streamed (Function.update qs c (qs c ++ [s.fresh])) := by
  obtain ⟨sendq, -, heq⟩ := hs.sendqPush_eq hb hc
  have hrest : ∀ c', (s.sendqPush c b).rest (qs c') = s.rest (qs c') := by
    rw [heq]
    intro c'
    refine rest_congr fun i hi => ?_
    have hne : i ≠ s.fresh := (hs.item_lt (hs.item hi)).ne
    simp only [Sends.itemRest, Function.update_of_ne hne]
  have hnew : (s.sendqPush c b).itemRest s.fresh = bp.msg := by
    rw [heq]
    simp only [Sends.itemRest, Function.update_self, Option.elim_some, (hs.live hb).1,
      Option.getD_some, List.drop_zero]
  rw [heq] at hrest hnew ⊢
  constructor
  · intro c' cp' hc'
    rcases Census.update_eq_iff.mp hc' with ⟨rfl, -⟩ | ⟨hne, hc'⟩
    · rw [Function.update_self, rest, List.flatMap_append, List.flatMap_singleton, hnew, ← rest,
        hrest]
      simp only [Function.update_self]
      rw [h.live hc, List.append_assoc]
    · rw [Function.update_of_ne hne, hrest]
      simp only [Function.update_of_ne hne]
      exact h.live hc'
  · intro c' hc'
    rcases Census.update_eq_iff.mp hc' with ⟨-, ⟨⟩⟩ | ⟨hne, hc'⟩
    simp only [Function.update_of_ne hne]
    exact h.gone hc'

/-! ### Pops and writes -/

/-- `sendq_pop` takes the first item, and its block if it was the last to refer to it. -/
theorem Sound.sendqPop_eq (h : s.Sound qs) (hc : s.conns c = some cp) (hq : qs c = i :: l) :
    ∃ (sip : SendqItem) (bp : SendqBlock) (sendq : Stailq ℕ), s.items i = some sip ∧
      s.blocks sip.block = some bp ∧ sendq.Holds l ∧ s.sendqPop c =
        { s with
          items := Function.update s.items i none
          blocks := Function.update s.blocks sip.block
            (if bp.refs - 1 = 0 then none else some { bp with refs := bp.refs - 1 })
          conns := Function.update s.conns c
            (some { cp with sendq := sendq, sendqItems := cp.sendqItems - 1 }) } := by
  obtain ⟨sip, bp, hfront, hsip, hbp⟩ := h.front hc hq
  obtain ⟨sendq, hsendq, hholds⟩ := (hq ▸ h.holds hc).removeHead
  refine ⟨sip, bp, sendq, hsip, hbp, hholds, ?_⟩
  rw [sendqPop, hc]
  simp only [hfront, hsendq]

theorem Sound.sendqPop (h : s.Sound qs) (hc : s.conns c = some cp) (hq : qs c = i :: l) :
    (s.sendqPop c).Sound (Function.update qs c l) := by
  obtain ⟨sip, bp, sendq, hsip, hbp, hholds, heq⟩ := h.sendqPop_eq hc hq
  have hlt : i < s.fresh := h.item_lt (by rw [hsip]; rfl)
  have hnot : i ∉ l := (List.nodup_cons.mp (hq ▸ (h.holds hc).nodup)).1
  have hsub : ∀ {c' j}, j ∈ Function.update qs c l c' → j ∈ qs c' ∧ j ≠ i := by
    intro c' j hj
    rcases mem_update_iff.mp hj with ⟨rfl, hjl⟩ | ⟨hne, hjl⟩
    · exact ⟨hq ▸ List.mem_cons_of_mem _ hjl, ne_of_mem_of_not_mem hjl hnot⟩
    · refine ⟨hjl, ?_⟩
      rintro rfl
      exact hne (h.owner hjl (hq ▸ List.mem_cons_self))
  have hrefs : ∀ b, (s.sendqPop c).refs b + (sip.block == b).toNat = s.refs b := by
    intro b
    have hupdate := @refs_update s i (s.sendqPop c) none (by rw [heq]) (by rw [heq]) hlt b
    rwa [hsip] at hupdate
  obtain ⟨hmade, hcount, hused⟩ := h.live hbp
  have hself := hrefs sip.block
  rw [beq_self_eq_true, Bool.toNat_true] at hself
  have hrequeued := @Sound.requeue s c qs
    { cp with sendq := sendq, sendqItems := cp.sendqItems - 1 } _ h hholds (by
      have hlength := h.count hc
      rw [hq, List.length_cons] at hlength
      show cp.sendqItems - 1 = l.length
      omega)
  rw [heq] at hrefs hself ⊢
  constructor
  · exact h.fault
  · exact hrequeued.holds
  · exact hrequeued.count
  · exact hrequeued.gone
  · intro c' j hj
    show (Function.update s.items i none j).isSome
    rw [Function.update_of_ne (hsub hj).2]
    exact h.item (hsub hj).1
  · exact fun h₁ h₂ => h.owner (hsub h₁).1 (hsub h₂).1
  · intro j sip' hj
    rcases Census.update_eq_iff.mp hj with ⟨-, ⟨⟩⟩ | ⟨hne, hj⟩
    obtain ⟨c', hc'⟩ := h.queued hj
    refine ⟨c', mem_update_iff.mpr ?_⟩
    by_cases hcc : c' = c
    · rw [hcc, hq, List.mem_cons] at hc'
      exact .inl ⟨hcc, hc'.resolve_left hne⟩
    · exact .inr ⟨hcc, hc'⟩
  · intro b bp' hb
    rcases Census.update_eq_iff.mp hb with ⟨rfl, hif⟩ | ⟨hne, hb⟩
    · obtain ⟨hne, ⟨⟩⟩ := Option.ite_none_left_eq_some.mp hif
      have hpos : 0 < s.refs sip.block := by omega
      refine ⟨hmade, ?_, iff_of_true (hused.mpr hpos) ?_⟩
      · show bp.refs - 1 = _
        omega
      · omega
    · have hb' := hrefs b
      rw [beq_false_of_ne (Ne.symm hne), Bool.toNat_false, Nat.add_zero] at hb'
      rw [hb']
      exact h.live hb
  · intro b hb
    rcases Census.update_eq_iff.mp hb with ⟨rfl, hif⟩ | ⟨hne, hb⟩
    · have hzero : bp.refs - 1 = 0 := by
        by_contra hne
        rw [if_neg hne] at hif
        cases hif
      exact ⟨by omega, fun _ => hused.mpr (by omega)⟩
    · have hb' := hrefs b
      rw [beq_false_of_ne (Ne.symm hne), Bool.toNat_false, Nat.add_zero] at hb'
      rw [hb']
      exact h.freed hb
  · intro n hn
    obtain ⟨hi, hb, hc', hothers⟩ := h.fresh hn
    exact ⟨(Function.update_of_ne (hlt.trans_le hn).ne' _ _).trans hi,
      (Function.update_of_ne ((h.block_lt hbp).trans_le hn).ne' _ _).trans hb,
      (Function.update_of_ne ((h.lt_fresh hc).trans_le hn).ne' _ _).trans hc', hothers⟩

/-- What `sendq_pop` leaves as it is. -/
structure Popped (s s' : Sends) (c : ℕ) (qs qs' : ℕ → List ℕ) : Prop where
  wire : s'.wire = s.wire
  pushed : s'.pushed = s.pushed
  conns : ∀ c', c' ≠ c → s'.conns c' = s.conns c'
  self : ∀ cp, s.conns c = some cp → ∃ cp', s'.conns c = some cp' ∧ cp'.info = cp.info
  rest : ∀ c', c' ≠ c → s'.rest (qs' c') = s.rest (qs c')

theorem Popped.refl : Popped s s c qs qs :=
  { wire := rfl, pushed := rfl, conns := fun _ _ => rfl, self := fun cp hc => ⟨cp, hc, rfl⟩
    rest := fun _ _ => rfl }

theorem Popped.trans {s' s'' : Sends} {qs' qs'' : ℕ → List ℕ} (h : Popped s s' c qs qs')
    (h' : Popped s' s'' c qs' qs'') : Popped s s'' c qs qs'' := by
  refine ⟨h'.wire.trans h.wire, h'.pushed.trans h.pushed, fun c' hc' =>
    (h'.conns c' hc').trans (h.conns c' hc'), fun cp hc => ?_, fun c' hc' =>
    (h'.rest c' hc').trans (h.rest c' hc')⟩
  obtain ⟨cp', hc', hinfo'⟩ := h.self cp hc
  obtain ⟨cp'', hc'', hinfo''⟩ := h'.self cp' hc'
  exact ⟨cp'', hc'', hinfo''.trans hinfo'⟩

theorem Sound.popped (h : s.Sound qs) (hc : s.conns c = some cp) (hq : qs c = i :: l) :
    Popped s (s.sendqPop c) c qs (Function.update qs c l) ∧
      (s.sendqPop c).rest l = s.rest l := by
  obtain ⟨sip, bp, sendq, -, -, -, heq⟩ := h.sendqPop_eq hc hq
  have hrest : ∀ j, j ≠ i → (s.sendqPop c).itemRest j = s.itemRest j := by
    intro j hj
    rw [heq]
    simp only [Sends.itemRest, Function.update_of_ne hj]
  refine ⟨⟨by rw [heq], by rw [heq], fun c' hc' => ?_, fun cp' hc' => ?_, fun c' hc' => ?_⟩,
    rest_congr fun j hj => hrest j (ne_of_mem_of_not_mem hj ?_)⟩
  · rw [heq]
    exact Function.update_of_ne hc' _ _
  · obtain rfl := Option.some.inj (hc.symm.trans hc')
    rw [heq]
    exact ⟨_, Function.update_self .., rfl⟩
  · rw [Function.update_of_ne hc']
    refine rest_congr fun j hj => hrest j ?_
    rintro rfl
    exact hc' (h.owner hj (hq ▸ List.mem_cons_self))
  · exact (List.nodup_cons.mp (hq ▸ (h.holds hc).nodup)).1

end

end Sends

end Ithildin
