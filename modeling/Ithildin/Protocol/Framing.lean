import Ithildin.Protocol.Input
import Ithildin.Protocol.ParseRfc

/-!
# Framing does not depend on how the stream is cut

The input routine consumes its stream one round at a time; what it has consumed and what is still
buffered make up what it has read (`Framed`).  A round keeps this as long as the parser leaves the
buffer behind its line alone (`Quiet`).

* `nextLine_cases`: where a round ends its line;
* `takeLine_line`: what a round makes of it;
* `drain_framed`, `input_framed`: the rounds of one read, and the reads of a run;
* `length_drain_le`: the buffer bound.
-/

namespace Ithildin

open Lines

/-- The call leaves what is buffered alone: either its line is no bare prefix of a known sender, or
the parser is a client's, or the buffer has room for a NUL behind text that is not cut. -/
def Quiet (p : Protocol) (call : Call) : Prop :=
  p.IsServer → BareKnown call.origins call.line →
    call.full = false ∧ Undisturbed (strAt call.behind)

instance (p : Protocol) (call : Call) : Decidable (Quiet p call) :=
  inferInstanceAs (Decidable (_ → _ → _))

/-- The text less a CR at its end. -/
def stripCr (line : Bytes) : Bytes := if line.getLast? = some cr then line.dropLast else line

/-- Where a buffer without NULs ends its first line: at its first newline, or at its end when it is
full. -/
theorem nextLine_cases {bufsize : ℕ} {buf : Bytes} (htext : IsText buf)
    (hlen : buf.length ≤ bufsize) :
    (∃ run rest, buf = run ++ newline :: rest ∧ newline ∉ run ∧
        nextLine bufsize buf = some (buf, run.length, false)) ∨
      (newline ∉ buf ∧ buf.length = bufsize ∧
        nextLine bufsize buf = some (buf.set (bufsize - 1) newline, bufsize - 1, true)) ∨
      (newline ∉ buf ∧ buf.length < bufsize ∧ nextLine bufsize buf = none) := by
  by_cases hnl : newline ∈ buf
  · obtain ⟨run, rest, hbuf, hrun⟩ := List.eq_append_cons_of_mem hnl
    have hidx : buf.idxOf newline = run.length := by
      rw [hbuf, List.idxOf_append_of_notMem hrun, List.idxOf_cons_self, Nat.add_zero]
    exact .inl ⟨run, rest, hbuf, hrun,
      by simp [nextLine, strAt_of_isText htext, hnl, hidx]⟩
  · rcases Nat.lt_or_eq_of_le hlen with hlt | heq
    · exact .inr (.inr ⟨hnl, hlt, by simp [nextLine, strAt_of_isText htext, hnl, hlt.ne]⟩)
    · exact .inr (.inl ⟨hnl, heq, by simp [nextLine, hnl, heq]⟩)

/-- The terminator cuts the CR off, and the bytes behind it are those behind the newline, but for
the newline itself where the terminator stands over the CR. -/
theorem set_lineEnd (run rest : Bytes) :
    ∃ tail, (run ++ newline :: rest).set (lineEnd (run ++ newline :: rest) run.length) 0 =
        stripCr run ++ 0 :: tail ∧
      tail.drop (run.length - (stripCr run).length) = rest ∧
      (stripCr run).length + tail.length = run.length + rest.length := by
  rcases List.eq_nil_or_concat run with rfl | ⟨init, c, rfl⟩
  · exact ⟨rest, by simp [lineEnd, stripCr], by simp [stripCr], by simp [stripCr]⟩
  · by_cases hc : c = cr
    · subst hc
      refine ⟨newline :: rest, ?_, ?_, ?_⟩
      · simp [lineEnd, stripCr]
      · simp [stripCr]
      · simp [stripCr]
        omega
    · refine ⟨rest, ?_, ?_, ?_⟩
      · simp [lineEnd, stripCr, hc]
      · simp [stripCr, hc]
      · simp [stripCr, hc]

theorem IsText.stripCr {run : Bytes} (h : IsText run) : IsText (stripCr run) := by
  unfold Ithildin.stripCr
  split
  · exact fun h0 => h (List.dropLast_subset _ h0)
  · exact h

theorem length_stripCr_le (run : Bytes) : (stripCr run).length ≤ run.length := by
  unfold stripCr
  split <;> simp

/-- What a round leaves behind its line is what stood behind it, as long as the parser left it
alone. -/
theorem rest_of_behind {after run line tail rest sentinel : Bytes}
    (hafter : after.drop (line.length + 1) = tail ++ sentinel)
    (htail : tail.drop (run.length - line.length) = rest)
    (hlen : line.length + tail.length = run.length + rest.length)
    (hle : line.length ≤ run.length) :
    (after.take (run ++ newline :: rest).length).drop (run.length + 1) = rest := by
  rw [List.drop_take, List.length_append, List.length_cons,
    show run.length + 1 = line.length + 1 + (run.length - line.length) by omega,
    ← List.drop_drop, hafter, List.drop_append_of_le_length (by omega), htail]
  exact List.take_left' (by omega)

/-- One round: the line is handed over unless the buffer was dirty, and the rest stays. -/
theorem takeLine_line (p : Protocol) (sv : Env) (bufsize : ℕ) (cp : Conn) {run rest : Bytes}
    (d : Bool) (htext : IsText (run ++ newline :: rest))
    (hroom : (run ++ newline :: rest).length ≤ bufsize) :
    let cp' := takeLine p sv bufsize cp (run ++ newline :: rest) run.length d
    cp'.dirty = d ∧
      (cp.dirty = true → cp'.calls = cp.calls ∧ cp'.buf = rest) ∧
      (cp.dirty = false → ∃ call, cp'.calls = cp.calls ++ [call] ∧ call.line = stripCr run ∧
        (Quiet p call → cp'.buf = rest)) := by
  obtain ⟨tail, hset, htail, hlen⟩ := set_lineEnd run rest
  have hrun : IsText run := fun h0 => htext (by simp [h0])
  have hle := length_stripCr_le run
  set sentinel : Bytes := if (run ++ newline :: rest).length < bufsize then [0] else [] with hsent
  have hmem : memory bufsize ((run ++ newline :: rest).set
      (lineEnd (run ++ newline :: rest) run.length) 0) =
      stripCr run ++ 0 :: (tail ++ sentinel) := by
    rw [memory, List.length_set, hset, hsent]
    split <;> simp
  have hstr := strAt_append hrun.stripCr (tail ++ sentinel)
  have hbehind : (stripCr run ++ 0 :: (tail ++ sentinel)).drop ((stripCr run).length + 1) =
      tail ++ sentinel := by
    rw [← List.drop_drop, List.drop_left]
    rfl
  simp only [takeLine, hmem, hstr, hbehind]
  refine ⟨trivial, fun hd => ?_, fun hd => ?_⟩
  · simp only [hd, if_true, true_and]
    exact rest_of_behind hbehind htail hlen hle
  · simp only [hd, Bool.false_eq_true, if_false]
    refine ⟨_, rfl, rfl, fun hq => ?_⟩
    have hafter := packetParse_behind p (sv.origins cp.lines) (sv.last cp.lines)
      (tail ++ sentinel) hrun.stripCr fun hp hbare => by
        obtain ⟨hfull, hundist⟩ := hq hp hbare
        have hlt : (run ++ newline :: rest).length ≠ bufsize := by simpa using hfull
        refine ⟨?_, hundist⟩
        rw [hsent, if_pos (by omega)]
        simp
    exact rest_of_behind hafter htail hlen hle

/-- The consumed bytes `past` have given the lines so far; the flag is set exactly while the
rest of a line that was cut is still to come. -/
structure Framed (bufsize : ℕ) (past : Bytes) (cp : Conn) : Prop where
  lines_eq : cp.lines = framedLines bufsize past
  clean : cp.dirty = false → unfinished newline past = []
  long : cp.dirty = true → bufsize ≤ (unfinished newline past).length

/-- A line longer than the buffer is delivered by what the buffer holds of it. -/
theorem deliver_append {bufsize : ℕ} (a b : Bytes) (h : bufsize ≤ a.length) :
    deliver bufsize (a ++ b) = deliver bufsize a := by
  simp only [deliver]
  rw [List.take_append_of_le_length (by omega)]

theorem deliver_eq {bufsize : ℕ} {run : Bytes} (h : run.length < bufsize) :
    deliver bufsize run = stripCr run := by
  simp only [deliver]
  rw [List.take_of_length_le (by omega)]
  rfl

section
variable {p : Protocol} {sv : Env} {bufsize : ℕ} {past : Bytes} {cp : Conn}

theorem Framed.lines_of_clean {run : Bytes} {call : Call} {cp' : Conn} (h : Framed bufsize past cp)
    (hcalls : cp'.calls = cp.calls ++ [call]) (hline : call.line = stripCr run) :
    cp'.lines = framedLines bufsize past ++ [stripCr run] := by
  rw [Conn.lines, hcalls, List.map_append, ← Conn.lines, h.lines_eq, List.map_singleton, hline]

/-- One round keeps the lines those of the bytes consumed. -/
theorem takeLine_framed (p : Protocol) (sv : Env) (hpos : 0 < bufsize) (h : Framed bufsize past cp)
    (htext : IsText cp.buf)
    (hroom : cp.buf.length ≤ bufsize) {buf : Bytes} {s : ℕ} {d : Bool}
    (hnext : nextLine bufsize cp.buf = some (buf, s, d))
    (hquiet : ∀ call ∈ (takeLine p sv bufsize cp buf s d).calls, Quiet p call) :
    ∃ eaten, cp.buf = eaten ++ (takeLine p sv bufsize cp buf s d).buf ∧ eaten ≠ [] ∧
      Framed bufsize (past ++ eaten) (takeLine p sv bufsize cp buf s d) := by
  rcases nextLine_cases htext hroom with
    ⟨run, rest, hbuf, hrun, hres⟩ | ⟨hnl, hfull, hres⟩ | ⟨-, -, hres⟩
  · -- the line ends at a newline, which is consumed with it
    obtain ⟨rfl, rfl, rfl⟩ : cp.buf = buf ∧ run.length = s ∧ false = d := by
      simpa [hres] using hnext
    rw [hbuf] at htext hroom hquiet ⊢
    obtain ⟨hflag, hskip, hcall⟩ := takeLine_line p sv bufsize cp false htext hroom
    set cp' := takeLine p sv bufsize cp (run ++ newline :: rest) run.length false
    have hend := (finished_newline newline (past ++ run)).2
    rw [List.append_assoc] at hend
    cases hd : cp.dirty with
    | true =>
      obtain ⟨hcalls, hrest⟩ := hskip hd
      refine ⟨run ++ [newline], by simp [hrest], by simp, ⟨?_, fun _ => hend, by simp [hflag]⟩⟩
      rw [Conn.lines, hcalls, ← Conn.lines, h.lines_eq, framedLines, framedLines,
        ← List.append_assoc, framed_rest_line hpos deliver_append (h.long hd) hrun]
    | false =>
      obtain ⟨call, hcalls, hline, hrest⟩ := hcall hd
      have hshort : run.length < bufsize := by
        simp only [List.length_append, List.length_cons] at hroom
        omega
      refine ⟨run ++ [newline], ?_, by simp, ⟨?_, fun _ => hend, by simp [hflag]⟩⟩
      · rw [hrest (hquiet call (by simp [hcalls]))]
        simp
      · rw [h.lines_of_clean hcalls hline, framedLines, framedLines, ← List.append_assoc,
          framed_line hpos (h.clean hd) hrun, deliver_eq hshort]
  · -- the buffer is full and the line goes on: it is delivered as far as it is there
    obtain ⟨rfl, rfl, rfl⟩ :
        cp.buf.set (bufsize - 1) newline = buf ∧ bufsize - 1 = s ∧ true = d := by
      simpa [hres] using hnext
    obtain ⟨run, hrun⟩ : ∃ run, cp.buf.take (bufsize - 1) = run := ⟨_, rfl⟩
    have hlen : bufsize - 1 = run.length := by
      rw [← hrun, List.length_take]
      omega
    have hset : cp.buf.set (bufsize - 1) newline = run ++ newline :: [] := by
      rw [List.set_eq_take_append_cons_drop, if_pos (by omega), hrun, Nat.sub_add_cancel hpos,
        List.drop_eq_nil_of_le hfull.le]
    have hcut : IsText (run ++ newline :: []) := by
      rw [← hrun]
      simpa [IsText, newline] using fun h0 => htext (List.mem_of_mem_take h0)
    have hdeliver : deliver bufsize cp.buf = stripCr run := by
      simp only [deliver, hrun]
      rfl
    rw [hset, hlen] at hquiet ⊢
    obtain ⟨hflag, hskip, hcall⟩ := takeLine_line p sv bufsize cp true hcut (by simp; omega)
    set cp' := takeLine p sv bufsize cp (run ++ newline :: []) run.length true
    have hunf := (finished_append past hnl).2
    have hlong : bufsize ≤ (unfinished newline (past ++ cp.buf)).length := by
      rw [hunf, List.length_append]
      omega
    have hne : cp.buf ≠ [] := List.ne_nil_of_length_pos (by omega)
    cases hd : cp.dirty with
    | true =>
      obtain ⟨hcalls, hrest⟩ := hskip hd
      refine ⟨cp.buf, by simp [hrest], hne, ⟨?_, by simp [hflag], fun _ => hlong⟩⟩
      rw [Conn.lines, hcalls, ← Conn.lines, h.lines_eq, framedLines, framedLines,
        framed_rest deliver_append (h.long hd) hnl]
    | false =>
      obtain ⟨call, hcalls, hline, hrest⟩ := hcall hd
      refine ⟨cp.buf, ?_, hne, ⟨?_, by simp [hflag], fun _ => hlong⟩⟩
      · rw [hrest (hquiet call (by simp [hcalls]))]
        simp
      · rw [h.lines_of_clean hcalls hline, framedLines, framedLines,
          framed_long hpos (h.clean hd) hnl hfull.ge, hdeliver]
  · simp [hres] at hnext

/-- The calls made in a round come after those made before it. -/
theorem takeLine_calls (p : Protocol) (sv : Env) (bufsize : ℕ) (cp : Conn) (buf : Bytes) (s : ℕ)
    (d : Bool) : cp.calls <+: (takeLine p sv bufsize cp buf s d).calls := by
  simp only [takeLine]
  split
  · exact List.prefix_rfl
  · exact List.prefix_append _ _

theorem drain_calls (p : Protocol) (sv : Env) (bufsize fuel : ℕ) (cp : Conn) :
    cp.calls <+: (drain p sv bufsize fuel cp).calls := by
  induction fuel generalizing cp with
  | zero => exact List.prefix_rfl
  | succ fuel ih =>
    rw [drain]
    split
    · exact List.prefix_rfl
    · split
      · exact List.prefix_rfl
      · exact (takeLine_calls ..).trans (ih _)

/-- The inner loop consumes its lines and stops where no line is complete. -/
theorem drain_framed (hpos : 0 < bufsize) {fuel : ℕ} (h : Framed bufsize past cp)
    (htext : IsText cp.buf) (hroom : cp.buf.length ≤ bufsize) (hfuel : cp.buf.length ≤ fuel)
    (hquiet : ∀ call ∈ (drain p sv bufsize fuel cp).calls, Quiet p call) :
    let cp' := drain p sv bufsize fuel cp
    ∃ eaten, cp.buf = eaten ++ cp'.buf ∧ Framed bufsize (past ++ eaten) cp' ∧
      newline ∉ cp'.buf ∧ cp'.buf.length < bufsize := by
  induction fuel generalizing cp past with
  | zero =>
    have hnil : cp.buf = [] := List.eq_nil_of_length_eq_zero (by omega)
    exact ⟨[], by simp [drain], by simpa [drain] using h, by simp [drain, hnil],
      by simpa [drain, hnil] using hpos⟩
  | succ fuel ih =>
    rw [drain] at hquiet ⊢
    by_cases hnil : cp.buf = []
    · rw [if_pos hnil]
      exact ⟨[], by simp, by simpa using h, by simp [hnil], by simpa [hnil] using hpos⟩
    · rw [if_neg hnil] at hquiet ⊢
      cases hnext : nextLine bufsize cp.buf with
      | none =>
        rcases nextLine_cases htext hroom with ⟨_, _, -, -, hres⟩ | ⟨-, -, hres⟩ | ⟨hnl, hlt, -⟩
        · simp [hres] at hnext
        · simp [hres] at hnext
        · exact ⟨[], by simp, by simpa using h, hnl, hlt⟩
      | some res =>
        obtain ⟨buf, s, d⟩ := res
        rw [hnext] at hquiet
        obtain ⟨eaten, hbuf, hne, hround⟩ := takeLine_framed p sv hpos h htext hroom hnext
          fun call hcall => hquiet call ((drain_calls ..).subset hcall)
        set cp1 := takeLine p sv bufsize cp buf s d
        have hlen : cp.buf.length = eaten.length + cp1.buf.length := by
          rw [hbuf, List.length_append]
        have hpos' := List.length_pos_of_ne_nil hne
        have htext' : IsText cp1.buf := htext.of_suffix ⟨eaten, hbuf.symm⟩
        obtain ⟨eaten', hbuf', hrest⟩ := ih hround htext' (by omega) (by omega) hquiet
        refine ⟨eaten ++ eaten', ?_, by rwa [← List.append_assoc]⟩
        rw [hbuf, hbuf', List.append_assoc]

theorem length_drain_le (p : Protocol) (sv : Env) (bufsize fuel : ℕ) (cp : Conn) :
    (drain p sv bufsize fuel cp).buf.length ≤ cp.buf.length := by
  induction fuel generalizing cp with
  | zero => exact le_rfl
  | succ fuel ih =>
    rw [drain]
    split
    · exact le_rfl
    · cases hnext : nextLine bufsize cp.buf with
      | none => exact le_rfl
      | some res =>
        obtain ⟨buf, s, d⟩ := res
        have hbuf : buf.length = cp.buf.length := by
          unfold nextLine at hnext
          split at hnext <;> split at hnext <;>
            simp only [Option.some.injEq, Prod.mk.injEq, reduceCtorEq] at hnext <;>
            simp [← hnext.1]
        refine (ih _).trans ?_
        simp only [takeLine, List.length_drop, List.length_take]
        omega

/-- One read keeps the lines those of the bytes read, and leaves no complete line behind. -/
theorem input_framed (hpos : 0 < bufsize) {chunk : Bytes} {cp' : Conn} (h : Framed bufsize past cp)
    (htext : IsText (cp.buf ++ chunk)) (hin : input p sv bufsize cp chunk = some cp')
    (hquiet : ∀ call ∈ cp'.calls, Quiet p call) :
    ∃ eaten, cp.buf ++ chunk = eaten ++ cp'.buf ∧ Framed bufsize (past ++ eaten) cp' ∧
      newline ∉ cp'.buf ∧ cp'.buf.length < bufsize := by
  obtain ⟨hroom, rfl⟩ : cp.buf.length + chunk.length ≤ bufsize ∧
      drain p sv bufsize (cp.buf ++ chunk).length { cp with buf := cp.buf ++ chunk } = cp' := by
    simpa [input] using hin
  have hread : Framed bufsize past { cp with buf := cp.buf ++ chunk } :=
    ⟨h.lines_eq, h.clean, h.long⟩
  exact drain_framed hpos hread htext (by simpa using hroom) le_rfl hquiet

theorem input_calls {chunk : Bytes} {cp' : Conn} (hin : input p sv bufsize cp chunk = some cp') :
    cp.calls <+: cp'.calls := by
  obtain ⟨-, rfl⟩ : cp.buf.length + chunk.length ≤ bufsize ∧
      drain p sv bufsize (cp.buf ++ chunk).length { cp with buf := cp.buf ++ chunk } = cp' := by
    simpa [input] using hin
  exact drain_calls p sv bufsize _ { cp with buf := cp.buf ++ chunk }

theorem length_input_le {chunk : Bytes} {cp' : Conn}
    (hin : input p sv bufsize cp chunk = some cp') :
    cp'.buf.length ≤ bufsize := by
  obtain ⟨hroom, rfl⟩ : cp.buf.length + chunk.length ≤ bufsize ∧
      drain p sv bufsize (cp.buf ++ chunk).length { cp with buf := cp.buf ++ chunk } = cp' := by
    simpa [input] using hin
  exact (length_drain_le ..).trans (by simpa using hroom)

/-- What is still buffered adds no line. -/
theorem Framed.lines_append (hpos : 0 < bufsize) (h : Framed bufsize past cp)
    (hnl : newline ∉ cp.buf) (hlt : cp.buf.length < bufsize) :
    cp.lines = framedLines bufsize (past ++ cp.buf) := by
  rw [h.lines_eq, framedLines, framedLines]
  cases hd : cp.dirty with
  | true => rw [framed_rest deliver_append (h.long hd) hnl]
  | false => rw [framed_short hpos (h.clean hd) hnl hlt]

/-- The reads of a run: the bytes read are those consumed and those buffered. -/
theorem run_framed (hpos : 0 < bufsize) {chunks : List Bytes} (htext : IsText chunks.flatten)
    (hrun : Run.run (input p sv bufsize) Conn.empty chunks = some cp)
    (hquiet : ∀ call ∈ cp.calls, Quiet p call) :
    ∃ past, chunks.flatten = past ++ cp.buf ∧ Framed bufsize past cp ∧ newline ∉ cp.buf ∧
      cp.buf.length < bufsize := by
  let I : List Bytes → Conn → Prop := fun chunks cp =>
    IsText chunks.flatten → (∀ call ∈ cp.calls, Quiet p call) →
      ∃ past, chunks.flatten = past ++ cp.buf ∧ Framed bufsize past cp ∧ newline ∉ cp.buf ∧
        cp.buf.length < bufsize
  have h0 : I [] Conn.empty := fun _ _ =>
    ⟨[], rfl, ⟨by simp [Conn.lines, Conn.empty, framedLines, framed_nil hpos],
      fun _ => unfinished_nil, by simp [Conn.empty]⟩, by simp [Conn.empty], hpos⟩
  refine Run.run_induction (I := I) h0 (fun chunks cp chunk cp' ih hin htext hquiet => ?_) hrun
    htext hquiet
  rw [List.flatten_concat] at htext ⊢
  obtain ⟨past, hpast, hframed, -, -⟩ := ih (fun h0 => htext (by simp [h0]))
    fun call hcall => hquiet call ((input_calls hin).subset hcall)
  rw [hpast, List.append_assoc] at htext ⊢
  obtain ⟨eaten, hbuf, hend⟩ := input_framed hpos hframed
    (fun h0 => htext (List.mem_append_right _ h0)) hin hquiet
  exact ⟨past ++ eaten, by rw [hbuf, List.append_assoc], hend⟩

end

/-- However a stream without NULs is cut into reads, the lines handed to `packet_parse` are those of
the stream and the buffer never overflows, as long as every call leaves the buffer alone. -/
theorem input_framing (p : Protocol) (sv : Env) {bufsize : ℕ} (hpos : 0 < bufsize)
    {chunks : List Bytes} {cp : Conn} (htext : IsText chunks.flatten)
    (hrun : Run.run (input p sv bufsize) Conn.empty chunks = some cp)
    (hquiet : ∀ call ∈ cp.calls, Quiet p call) :
    cp.lines = framedLines bufsize chunks.flatten ∧ cp.buf.length ≤ bufsize := by
  obtain ⟨past, hpast, hframed, hnl, hlt⟩ := run_framed hpos htext hrun hquiet
  rw [hpast]
  exact ⟨hframed.lines_append hpos hnl hlt, hlt.le⟩

/-- A server that knows one server, at every moment. -/
def oneServerAlways (name : Bytes) : Env := ⟨fun _ => oneServer name, fun _ _ => 0⟩

theorem input_framing_two_reads :
    let chunks := [bytes ":a.b PI", bytes "NG x\r\n"]
    let cp : Conn := ⟨[], false, [⟨oneServer (bytes "a.b"), bytes ":a.b PING x", [10, 0], false⟩]⟩
    cp.lines = framedLines 512 chunks.flatten ∧ cp.buf.length ≤ 512 :=
  input_framing .ithildin1 (oneServerAlways (bytes "a.b")) (by decide) (by decide +kernel)
    (by rfl) (by decide +kernel)

/-- Read at once, the line behind a bare prefix is lost to the parser of the prefix; read alone, it
is not. -/
theorem input_framing_fails :
    let sv := oneServerAlways (bytes "a.b")
    let stream := bytes ":a.b\nPING x\n"
    (Run.run (input .ithildin1 sv 512) Conn.empty [stream]).map Conn.lines = some [bytes ":a.b"] ∧
      (Run.run (input .ithildin1 sv 512) Conn.empty [stream.take 5, stream.drop 5]).map Conn.lines =
        some [bytes ":a.b", bytes "PING x"] ∧
      framedLines 512 stream = [bytes ":a.b", bytes "PING x"] := by
  refine ⟨?_, ?_, ?_⟩ <;> decide +kernel

end Ithildin
