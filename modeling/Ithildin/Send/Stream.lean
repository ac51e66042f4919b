import Ithildin.Send.Queue

/-!
# The send queue as a stream

* `Ready`: the state between two calls, one connection in view;
* `writeItems_ready`, `closeConnection_inv`, `sendqFlush_inv`: what writing, closing and flushing
  keep;
* `step_inv`: no action spoils what holds between the calls;
* `stream_of_run`: in every run the bytes on the wire are the first of those pushed, and a block is
  in memory just as long as it has not been pushed or an item refers to it.
-/

namespace Ithildin

namespace Sends

variable {s s' : Sends} {c i : ℕ} {qs : ℕ → List ℕ} {cp cp' : SendConn} {l : List ℕ}
  {sip : SendqItem} {bp : SendqBlock}

/-- What holds between two calls. -/
def Inv (s : Sends) : Prop := ∃ qs, s.Sound qs ∧ s.Streamed qs

/-- What holds while a connection is at work that has the given flags. -/
def Ready (s : Sends) (c : ℕ) (info : ConnInfo) : Prop :=
  ∃ qs cp, s.Sound qs ∧ s.Streamed qs ∧ s.conns c = some cp ∧ cp.info = info

theorem Ready.inv {info : ConnInfo} (h : s.Ready c info) : s.Inv :=
  let ⟨qs, _, hs, ht, _⟩ := h
  ⟨qs, hs, ht⟩

theorem Inv.ready (h : s.Inv) (hc : s.conns c = some cp) : s.Ready c cp.info :=
  let ⟨qs, hs, ht⟩ := h
  ⟨qs, cp, hs, ht, hc, rfl⟩

/-! ### Writing -/

/-- The socket has taken all of the first item, which is popped. -/
theorem Streamed.wrote (hs : s.Sound qs) (h : s.Streamed qs) (hc : s.conns c = some cp)
    (hq : qs c = i :: l) (hsip : s.items i = some sip) (hbp : s.blocks sip.block = some bp)
    (hsendq : cp'.sendq = cp.sendq) (hitems : cp'.sendqItems = cp.sendqItems)
    (hinfo : cp'.info = cp.info) :
    (((s.took c (bp.msg.drop sip.offset)).putConn c cp').sendqPop c).Ready c cp.info := by
  have hsound : ((s.took c (bp.msg.drop sip.offset)).putConn c cp').Sound qs :=
    (hs.took hc _).putConn hc hsendq hitems
  have hc' : ((s.took c (bp.msg.drop sip.offset)).putConn c cp').conns c = some cp' :=
    Function.update_self ..
  obtain ⟨hpop, hrest⟩ := hsound.popped hc' hq
  obtain ⟨cp'', hc'', hinfo'⟩ := hpop.self cp' hc'
  refine ⟨_, cp'', hsound.sendqPop hc' hq, ⟨fun {c' cp₀} hlive => ?_, fun {c'} hgone => ?_⟩, hc'',
    hinfo'.trans hinfo⟩
  · rw [hpop.wire, hpop.pushed]
    show s.pushed c' = Function.update s.wire c (s.wire c ++ bp.msg.drop sip.offset) c' ++ _
    by_cases hcc : c' = c
    · subst hcc
      have hleft : s.rest (i :: l) = bp.msg.drop sip.offset ++ s.rest l := by
        rw [rest, List.flatMap_cons, hs.itemRest hsip hbp, rest]
      rw [Function.update_self, Function.update_self, hrest, h.live hc, hq, hleft,
        List.append_assoc]
      rfl
    · rw [Function.update_of_ne hcc, hpop.rest c' hcc]
      rw [hpop.conns c' hcc] at hlive
      exact h.live ((Function.update_of_ne hcc _ _).symm.trans hlive)
  · have hcc : c' ≠ c := by
      rintro rfl
      cases hc''.symm.trans hgone
    rw [hpop.conns c' hcc] at hgone
    rw [hpop.wire, hpop.pushed]
    show Ended (s.pushed c') (Function.update s.wire c (s.wire c ++ bp.msg.drop sip.offset) c')
    rw [Function.update_of_ne hcc]
    exact h.gone ((Function.update_of_ne hcc _ _).symm.trans hgone)

/-- The socket has taken the beginning of what is left of the first item. -/
theorem Streamed.wrotePart (hs : s.Sound qs) (h : s.Streamed qs) (hc : s.conns c = some cp)
    (hq : qs c = i :: l) (hsip : s.items i = some sip) (hbp : s.blocks sip.block = some bp)
    (n : ℕ) :
    ((s.took c ((bp.msg.drop sip.offset).take n)).putItem i
      { sip with offset := sip.offset + n }).Ready c cp.info := by
  refine ⟨qs, cp, (hs.took hc _).putItem hsip _, ⟨fun {c' cp₀} hlive => ?_, fun {c'} hgone => ?_⟩,
    hc, rfl⟩
  · have hother : ∀ j, j ≠ i → ((s.took c ((bp.msg.drop sip.offset).take n)).putItem i
        { sip with offset := sip.offset + n }).itemRest j = s.itemRest j := by
      intro j hj
      simp only [itemRest, putItem, took, Function.update_of_ne hj]
    show s.pushed c' = Function.update s.wire c _ c' ++ _
    by_cases hcc : c' = c
    · subst hcc
      have hnot : i ∉ l := (List.nodup_cons.mp (hq ▸ (hs.holds hc).nodup)).1
      have hself : ((s.took c' ((bp.msg.drop sip.offset).take n)).putItem i
          { sip with offset := sip.offset + n }).itemRest i =
            (bp.msg.drop sip.offset).drop n := by
        simp only [itemRest, putItem, took, Function.update_self, Option.elim_some,
          (hs.live hbp).1, Option.getD_some, List.drop_drop]
      have hleft : s.rest (i :: l) = bp.msg.drop sip.offset ++ s.rest l := by
        rw [rest, List.flatMap_cons, hs.itemRest hsip hbp, rest]
      rw [Function.update_self, hq, rest, List.flatMap_cons, hself, ← rest,
        rest_congr fun j hj => hother j (ne_of_mem_of_not_mem hj hnot), h.live hc, hq, hleft,
        List.append_assoc, ← List.append_assoc (List.take n _), List.take_append_drop]
    · rw [Function.update_of_ne hcc, rest_congr fun j hj => hother j ?_]
      · exact h.live hlive
      · rintro rfl
        exact hcc (hs.owner hj (hq ▸ List.mem_cons_self))
  · have hcc : c' ≠ c := by
      rintro rfl
      cases hc.symm.trans hgone
    show Ended (s.pushed c') (Function.update s.wire c _ c')
    rw [Function.update_of_ne hcc]
    exact h.gone hgone

/-- Whatever the socket answers, the bytes it takes come off the front of the queue. -/
theorem writeItems_ready {info : ConnInfo} (results : List ℤ) (h : s.Ready c info) :
    (writeItems c results s).Ready c info := by
  induction results generalizing s with
  | nil => exact h
  | cons r results ih =>
    obtain ⟨qs, cp, hs, ht, hc, rfl⟩ := h
    rw [writeItems, hc]
    cases hq : qs c with
    | nil =>
      simp only [(hs.isNone_first hc).mpr hq, if_true]
      exact ⟨qs, cp, hs, ht, hc, rfl⟩
    | cons i l =>
      have hfalse := hs.isNone_first_of_cons hc hq
      obtain ⟨sip, bp, hfront, hsip, hbp⟩ := hs.front hc hq
      simp only [hfalse, Bool.false_eq_true, if_false, hfront]
      split
      · exact ⟨qs, cp, hs, ht, hc, rfl⟩
      · split
        · exact ht.wrotePart hs hc hq hsip hbp _
        · exact ih (ht.wrote hs hc hq hsip hbp rfl rfl rfl)

/-! ### Closing -/

/-- The queue of a connection that is closed is thrown away. -/
theorem popItems_sound (n : ℕ) (hs : s.Sound qs) (hc : s.conns c = some cp)
    (hn : (qs c).length < n) :
    (popItems c n s).Sound (Function.update qs c []) ∧
      Popped s (popItems c n s) c qs (Function.update qs c []) := by
  induction n generalizing s qs cp with
  | zero => cases hn
  | succ n ih =>
    rw [popItems, hc]
    cases hq : qs c with
    | nil =>
      have hself : Function.update qs c [] = qs := by rw [← hq, Function.update_eq_self]
      simp only [(hs.isNone_first hc).mpr hq, if_true, hself]
      exact ⟨hs, .refl⟩
    | cons i l =>
      have hfalse := hs.isNone_first_of_cons hc hq
      obtain ⟨hpop, -⟩ := hs.popped hc hq
      obtain ⟨cp', hc', -⟩ := hpop.self cp hc
      rw [hq, List.length_cons] at hn
      have hlength : (Function.update qs c l c).length < n := by
        rw [Function.update_self]
        omega
      obtain ⟨hsound, hrest⟩ := ih (hs.sendqPop hc hq) hc' hlength
      rw [Function.update_idem] at hsound hrest
      simp only [hfalse, Bool.false_eq_true, if_false]
      exact ⟨hsound, hpop.trans hrest⟩

/-- A connection with nothing on its queue is freed. -/
theorem Sound.remove (h : s.Sound qs) (hc : s.conns c = some cp) (hq : qs c = []) :
    ({ s with conns := Function.update s.conns c none } : Sends).Sound qs := by
  constructor
  · exact h.fault
  · intro c' cp' hc'
    rcases Census.update_eq_iff.mp hc' with ⟨-, ⟨⟩⟩ | ⟨-, hc'⟩
    exact h.holds hc'
  · intro c' cp' hc'
    rcases Census.update_eq_iff.mp hc' with ⟨-, ⟨⟩⟩ | ⟨-, hc'⟩
    exact h.count hc'
  · intro c' hc'
    rcases Census.update_eq_iff.mp hc' with ⟨rfl, -⟩ | ⟨-, hc'⟩
    · exact hq
    · exact h.gone hc'
  · exact h.item
  · exact h.owner
  · exact h.queued
  · exact h.live
  · exact h.freed
  · intro n hn
    obtain ⟨hi, hb, hc', hothers⟩ := h.fresh hn
    exact ⟨hi, hb, (Function.update_of_ne ((h.lt_fresh hc).trans_le hn).ne' _ _).trans hc', hothers⟩

theorem closeConnection_inv (h : s.Inv) (hc : s.conns c = some cp) (reason : Bytes) (r : ℤ) :
    (s.closeConnection c reason r).Inv := by
  obtain ⟨qs, hs, ht⟩ := h
  rw [closeConnection, hc]
  by_cases hempty : cp.sendq.first.isNone ∧ reason ≠ []
  · -- the queue has been written, and the closing line follows
    have hq : qs c = [] := (hs.isNone_first hc).mp hempty.1
    simp only [if_pos hempty]
    refine ⟨qs, (hs.took hc _).remove hc hq, ⟨fun {c' cp'} hlive => ?_, fun {c'} hgone => ?_⟩⟩
    · rcases Census.update_eq_iff.mp hlive with ⟨-, ⟨⟩⟩ | ⟨hne, hlive⟩
      show s.pushed c' = Function.update s.wire c _ c' ++ s.rest (qs c')
      rw [Function.update_of_ne hne]
      exact ht.live hlive
    · show Ended (s.pushed c') (Function.update s.wire c _ c')
      rcases Census.update_eq_iff.mp hgone with ⟨rfl, -⟩ | ⟨hne, hgone⟩
      · have hall : s.pushed c' = s.wire c' := by
          rw [ht.live hc, hq]
          exact List.append_nil _
        rw [Function.update_self]
        exact ⟨s.wire c', _, rfl, hall ▸ List.prefix_rfl,
          fun _ => ⟨hall.symm, cp.info.host, reason, List.take_prefix _ _⟩⟩
      · rw [Function.update_of_ne hne]
        exact ht.gone hgone
  · -- what the socket has not taken is thrown away
    have hlength : (qs c).length < cp.sendqItems.toNat + 1 := by
      rw [hs.count hc, Int.toNat_natCast]
      exact Nat.lt_succ_self _
    obtain ⟨hsound, hpop⟩ := popItems_sound _ hs hc hlength
    obtain ⟨cp', hc', -⟩ := hpop.self cp hc
    simp only [if_neg hempty]
    refine ⟨_, hsound.remove hc' (Function.update_self ..),
      ⟨fun {c' cp'} hlive => ?_, fun {c'} hgone => ?_⟩⟩
    · rcases Census.update_eq_iff.mp hlive with ⟨-, ⟨⟩⟩ | ⟨hne, hlive⟩
      show (popItems c _ s).pushed c' = (popItems c _ s).wire c' ++ (popItems c _ s).rest _
      rw [hpop.conns c' hne] at hlive
      rw [hpop.pushed, hpop.wire, hpop.rest c' hne]
      exact ht.live hlive
    · show Ended ((popItems c _ s).pushed c') ((popItems c _ s).wire c')
      rw [hpop.pushed, hpop.wire]
      rcases Census.update_eq_iff.mp hgone with ⟨rfl, -⟩ | ⟨hne, hgone⟩
      · exact ⟨s.wire c', [], (List.append_nil _).symm, ht.live hc ▸ List.prefix_append _ _,
          fun h => absurd rfl h⟩
      · rw [hpop.conns c' hne] at hgone
        exact ht.gone hgone

/-! ### Calls -/

theorem sendCall_inv {k : SendCall} (h : s.Inv) (hk : s.sendCall k = some s') :
    s'.Inv ∧ ∀ c, (s.conns c).isSome → (s'.conns c).isSome := by
  obtain ⟨qs, hs, ht⟩ := h
  cases k with
  | create msg =>
    obtain rfl := Option.some.inj hk
    exact ⟨⟨qs, hs.create msg, ht.create hs msg⟩, fun c hc => hc⟩
  | push b c =>
    obtain ⟨⟨hb, hc⟩, ⟨⟩⟩ := Option.ite_none_right_eq_some.mp hk
    obtain ⟨bp, hb⟩ := Option.isSome_iff_exists.mp hb
    obtain ⟨cp, hc⟩ := Option.isSome_iff_exists.mp hc
    refine ⟨⟨_, hs.sendqPush hb hc, ht.sendqPush hs hb hc⟩, fun c' hc' => ?_⟩
    obtain ⟨sendq, -, heq⟩ := hs.sendqPush_eq hb hc
    rw [heq]
    show (Function.update s.conns c _ c').isSome
    by_cases hcc : c' = c
    · rw [hcc, Function.update_self]
      rfl
    · rwa [Function.update_of_ne hcc]

theorem sendCalls_inv {ks : List SendCall} (h : s.Inv) (hks : Run.run sendCall s ks = some s') :
    s'.Inv ∧ ∀ c, (s.conns c).isSome → (s'.conns c).isSome := by
  induction ks generalizing s with
  | nil =>
    obtain rfl := Option.some.inj hks
    exact ⟨h, fun _ hc => hc⟩
  | cons k ks ih =>
    obtain ⟨s₁, hk, hrest⟩ := Run.run_cons_eq_some.mp hks
    obtain ⟨h₁, hconns⟩ := sendCall_inv h hk
    obtain ⟨h', hconns'⟩ := ih h₁ hrest
    exact ⟨h', fun c hc => hconns' c (hconns c hc)⟩

theorem Inv.putConn (h : s.Inv) (hc : s.conns c = some cp) (hq : cp'.sendq = cp.sendq)
    (hn : cp'.sendqItems = cp.sendqItems) : (s.putConn c cp').Inv :=
  let ⟨qs, hs, ht⟩ := h
  ⟨qs, hs.putConn hc hq hn, ht.putConn hc cp'⟩

/-- `sendq_flush`, whatever it does with a connection whose queue is too long. -/
theorem sendqFlush_inv {destroy : Sends → Option Sends} {results : List ℤ} {alive : Bool}
    (h : s.Inv) (hc : (s.conns c).isSome)
    (hdestroy : ∀ s₁ s₂ : Sends, s₁.Inv → (s₁.conns c).isSome → destroy s₁ = some s₂ → s₂.Inv)
    (hflush : s.sendqFlush c destroy results = some (alive, s')) :
    s'.Inv ∧ (alive = true → (s'.conns c).isSome) := by
  obtain ⟨cp, hc⟩ := Option.isSome_iff_exists.mp hc
  rw [sendqFlush, hc] at hflush
  dsimp only at hflush
  have hready : (if cp.info.writeable then writeItems c results s else s).Ready c cp.info := by
    split
    · exact writeItems_ready results (h.ready hc)
    · exact h.ready hc
  generalize (if cp.info.writeable then writeItems c results s else s) = s₁ at hready hflush
  have hinv := hready.inv
  obtain ⟨-, cp₁, -, -, hc₁, -⟩ := hready
  rw [hc₁] at hflush
  dsimp only at hflush
  split at hflush
  · obtain ⟨⟩ := Option.some.inj hflush
    refine ⟨hinv.putConn hc₁ rfl rfl, fun _ => ?_⟩
    show (Function.update s₁.conns c _ c).isSome
    rw [Function.update_self]
    rfl
  · split at hflush
    · obtain ⟨s₂, hs₂, ⟨⟩⟩ := Option.map_eq_some_iff.mp hflush
      refine ⟨hdestroy s₁ _ hinv (by rw [hc₁]; rfl) hs₂, fun hfalse => ?_⟩
      cases hfalse
    · obtain ⟨⟩ := Option.some.inj hflush
      exact ⟨hinv, fun _ => by rw [hc₁]; rfl⟩

theorem closeConnection_inv' (h : s.Inv) (hc : (s.conns c).isSome) (reason : Bytes) (r : ℤ) :
    (s.closeConnection c reason r).Inv :=
  let ⟨_, hc⟩ := Option.isSome_iff_exists.mp hc
  closeConnection_inv h hc reason r

theorem destroyOwner_inv {msg : Bytes} {leaving : Leaving} (h : s.Inv) (hc : (s.conns c).isSome)
    (hdestroy : s.destroyOwner c msg leaving = some s') : s'.Inv := by
  obtain ⟨s₁, hcalls, hrest⟩ := Option.bind_eq_some_iff.mp hdestroy
  obtain ⟨⟨alive, s₂⟩, hflush, rfl⟩ := Option.map_eq_some_iff.mp hrest
  obtain ⟨h₁, hconns⟩ := sendCalls_inv h hcalls
  obtain ⟨cp, hc₁⟩ := Option.isSome_iff_exists.mp (hconns c hc)
  have hdisown : (s₁.disown c).Inv ∧ ((s₁.disown c).conns c).isSome := by
    rw [disown, hc₁]
    refine ⟨h₁.putConn hc₁ rfl rfl, ?_⟩
    show (Function.update s₁.conns c _ c).isSome
    rw [Function.update_self]
    rfl
  obtain ⟨h₂, halive⟩ := sendqFlush_inv hdisown.1 hdisown.2 (fun s₃ s₄ h₃ hc₃ hs₄ =>
    Option.some.inj hs₄ ▸ closeConnection_inv' h₃ hc₃ _ _) hflush
  cases alive with
  | false => exact h₂
  | true => exact closeConnection_inv' h₂ (halive rfl) _ _

theorem destroyConnection_inv {reason : Bytes} {leaving : Leaving} (h : s.Inv)
    (hc : (s.conns c).isSome) (hdestroy : s.destroyConnection c reason leaving = some s') :
    s'.Inv := by
  obtain ⟨cp, hcp⟩ := Option.isSome_iff_exists.mp hc
  rw [destroyConnection, hcp] at hdestroy
  dsimp only at hdestroy
  split at hdestroy
  · exact destroyOwner_inv h hc hdestroy
  · obtain rfl := Option.some.inj hdestroy
    exact closeConnection_inv h hcp _ _

theorem step_inv {a : SendAction} (h : s.Inv) (hstep : step s a = some s') : s'.Inv := by
  cases a with
  | accept info =>
    obtain rfl := Option.some.inj hstep
    obtain ⟨qs, hs, ht⟩ := h
    exact ⟨qs, hs.accept info, ht.accept hs info⟩
  | call k => exact (sendCall_inv h hstep).1
  | adjust c info =>
    obtain ⟨cp, hc, rfl⟩ := Option.map_eq_some_iff.mp hstep
    exact h.putConn hc rfl rfl
  | flush c results leaving =>
    obtain ⟨hc, hmap⟩ := Option.ite_none_right_eq_some.mp hstep
    obtain ⟨⟨alive, s₁⟩, hflush, rfl⟩ := Option.map_eq_some_iff.mp hmap
    exact (sendqFlush_inv h hc (fun _ _ h₁ hc₁ => destroyConnection_inv h₁ hc₁) hflush).1
  | destroy c reason leaving =>
    obtain ⟨hc, hdestroy⟩ := Option.ite_none_right_eq_some.mp hstep
    exact destroyConnection_inv h hc hdestroy

theorem inv_start : start.Inv := ⟨_, sound_start, streamed_start⟩

/-! ### Whole runs -/

/-- What the queues are in every run. -/
structure Stream (s : Sends) : Prop where
  /-- No access goes wrong. -/
  fault : s.fault = false
  /-- The socket has taken the first of the bytes pushed, and the items on the queue have the
  others. -/
  live : ∀ c cp, s.conns c = some cp → ∃ l, cp.sendq.Holds l ∧ cp.sendqItems = l.length ∧
    s.pushed c = s.wire c ++ s.rest l
  gone : ∀ c, s.conns c = none → Ended (s.pushed c) (s.wire c)
  /-- Every item is on a queue. -/
  items : ∀ i, (s.items i).isSome ↔ ∃ c cp l, s.conns c = some cp ∧ cp.sendq.Holds l ∧ i ∈ l
  /-- A block is in memory from when it is made until it has been pushed and no item refers to it
  any more. -/
  blocks : ∀ b, (s.blocks b).isSome ↔ (s.made b).isSome ∧ (s.used b = true → 0 < s.refs b)
  /-- A block is freed when the one item that refers to it is popped. -/
  pop : ∀ c cp i sip, s.conns c = some cp → cp.sendq.first = some i → s.items i = some sip →
    ((s.sendqPop c).blocks sip.block = none ↔ s.refs sip.block = 1) ∧
    ∀ b, b ≠ sip.block → (s.sendqPop c).blocks b = s.blocks b

theorem Sound.blocks_iff (h : s.Sound qs) (b : ℕ) :
    (s.blocks b).isSome ↔ (s.made b).isSome ∧ (s.used b = true → 0 < s.refs b) := by
  cases hb : s.blocks b with
  | none =>
    obtain ⟨hzero, hused⟩ := h.freed hb
    refine iff_of_false Bool.false_ne_true fun ⟨hmade, hpos⟩ => ?_
    have hlt : 0 < s.refs b := hpos (hused (Option.isSome_iff_ne_none.mp hmade))
    omega
  | some bp =>
    obtain ⟨hmade, -, hused⟩ := h.live hb
    exact iff_of_true rfl ⟨by rw [hmade]; rfl, hused.mp⟩

theorem Sound.pop_iff (h : s.Sound qs) (hc : s.conns c = some cp) (hfirst : cp.sendq.first = some i)
    (hsip : s.items i = some sip) :
    ((s.sendqPop c).blocks sip.block = none ↔ s.refs sip.block = 1) ∧
      ∀ b, b ≠ sip.block → (s.sendqPop c).blocks b = s.blocks b := by
  have hhead : (qs c).head? = some i := (h.holds hc).first_eq.symm.trans hfirst
  obtain ⟨l, hq⟩ : ∃ l, qs c = i :: l := by
    cases hq : qs c with
    | nil =>
      rw [hq] at hhead
      cases hhead
    | cons j l =>
      rw [hq] at hhead
      obtain rfl := Option.some.inj hhead
      exact ⟨l, rfl⟩
  obtain ⟨sip', bp, sendq, hsip', hbp, -, heq⟩ := h.sendqPop_eq hc hq
  obtain rfl : sip' = sip := Option.some.inj (hsip'.symm.trans hsip)
  obtain ⟨-, hcount, -⟩ := h.live hbp
  rw [heq]
  refine ⟨?_, fun b hb => Function.update_of_ne hb _ _⟩
  show Function.update s.blocks sip'.block _ sip'.block = none ↔ _
  rw [Function.update_self]
  by_cases hone : bp.refs - 1 = 0
  · rw [if_pos hone]
    exact iff_of_true rfl (by omega)
  · rw [if_neg hone]
    exact iff_of_false (Option.some_ne_none _) (by omega)

theorem Inv.stream (h : s.Inv) : s.Stream := by
  obtain ⟨qs, hs, ht⟩ := h
  constructor
  · exact hs.fault
  · exact fun c cp hc => ⟨qs c, hs.holds hc, hs.count hc, ht.live hc⟩
  · exact fun c => ht.gone
  · refine fun i => ⟨fun hi => ?_, fun ⟨c, cp, l, hc, hl, hi⟩ => ?_⟩
    · obtain ⟨sip, hi⟩ := Option.isSome_iff_exists.mp hi
      obtain ⟨c, hic⟩ := hs.queued hi
      obtain ⟨cp, hc⟩ : ∃ cp, s.conns c = some cp := by
        refine Option.ne_none_iff_exists'.mp fun hnone => ?_
        rw [hs.gone hnone] at hic
        cases hic
      exact ⟨c, cp, qs c, hc, hs.holds hc, hic⟩
    · exact hs.item (hl.unique (hs.holds hc) ▸ hi)
  · exact hs.blocks_iff
  · exact fun c cp i sip hc => hs.pop_iff hc

/-- The queues are streams in every run. -/
theorem stream_of_run (as : List SendAction) (s : Sends) (hrun : Run.run step start as = some s) :
    s.Stream :=
  Inv.stream (Run.run_induction (I := fun _ => Inv) inv_start
    (fun _ _ _ _ h hstep => step_inv h hstep) hrun)

/-- A connection of a client, to which a message of two bytes is pushed; the socket takes one byte,
and the other at the next try. -/
def twoTries : List SendAction :=
  [.accept { host := bytes "h", writeable := true, nosendq := false, owned := true,
             classSendq := 1 },
   .call (.create (bytes "ab")), .call (.push 1 0),
   .flush 0 [1] { calls := [], results := [], last := 0 },
   .flush 0 [1] { calls := [], results := [], last := 0 }]

theorem stream_of_run_twoTries : ∃ s, Run.run step start twoTries = some s ∧ s.Stream := by
  have hsome : (Run.run step start twoTries).isSome := by decide +kernel
  obtain ⟨s, hrun⟩ := Option.isSome_iff_exists.mp hsome
  exact ⟨s, hrun, stream_of_run twoTries s hrun⟩

/-- The queue of a client is too long, and its last message goes out when the client is taken out;
the closing line follows. -/
def lastWords : List SendAction :=
  [.accept { host := bytes "h", writeable := true, nosendq := false, owned := true,
             classSendq := 0 },
   .call (.create (bytes "a")), .call (.push 1 0),
   .flush 0 [0] { calls := [], results := [1], last := 512 }]

/-- More may be written to a connection than was pushed to it. -/
theorem stream_fails : ¬ ∀ (as : List SendAction) (s : Sends),
    Run.run step start as = some s → ∀ c, s.wire c <+: s.pushed c := by
  intro hall
  have hvals : (Run.run step start lastWords).map (fun s => (s.wire 0, s.pushed 0)) =
      some (bytes "a\r\nERROR :Closing Link: h (SendQ Exceeded)\r\n", bytes "a") := by
    decide +kernel
  obtain ⟨s, hrun, hs⟩ := Option.map_eq_some_iff.mp hvals
  obtain ⟨hwire, hpushed⟩ := Prod.mk.inj hs
  have hprefix := hall lastWords s hrun 0
  rw [hwire, hpushed] at hprefix
  exact absurd hprefix.length_le (by decide)

end Sends

end Ithildin
