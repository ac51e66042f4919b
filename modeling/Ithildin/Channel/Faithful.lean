import Ithildin.Channel.Propagation

/-!
# Where the other server ends

* `SameLoose`: the mode that an argument that is not a word belongs to is the same at both servers;
* `Before.sameLoose_iff`: it is when that byte meets its condition;
* `Relay.stage`: behind every part of the mode string the other server follows, before or behind
  such an argument;
* `Relay.faithful_iff`: the other server ends with our modes exactly when every byte meets its
  condition.
-/

namespace Ithildin

open Tokens

/-! ### Masks that are the same -/

theorem BanList.nodup (l : BanList) : l.list.Nodup := by
  refine l.distinct.imp ?_
  rintro b c h rfl
  rw [Ban.same_refl] at h
  cases h

/-- A mask that is on the list takes one off. -/
theorem BanList.exists_not_mem_remove {l : BanList} {b cbp : Ban} (hmem : cbp ∈ l.list)
    (hsame : cbp.same b = true) :
    ∃ c ∈ l.list, c.same b = true ∧ c ∉ (l.remove b).list := by
  obtain ⟨c, before, behind, hbefore, hc, hlist, herase⟩ := 
    List.exists_of_eraseP (p := fun cbp => cbp.same b) hmem hsame
  refine ⟨c, by simp [hlist], hc, ?_⟩
  have hnodup := l.nodup
  rw [hlist] at hnodup
  show c ∉ l.list.eraseP _
  rw [herase]
  intro hin
  rcases List.mem_append.mp hin with hin | hin
  · exact hbefore c hin hc
  · exact (List.nodup_cons.mp (List.nodup_append.mp hnodup).2.1).1 hin

/-- Masks of another length stay. -/
theorem BanList.mem_remove_of_length {l : BanList} {b c : Ban} (hmem : c ∈ l.list)
    (hlen : c.text.length ≠ b.text.length) : c ∈ (l.remove b).list := by
  have hsame : ¬ c.same b = true := fun h => hlen (Ban.length_text_of_same h)
  exact (List.mem_eraseP_of_neg (p := fun cbp => cbp.same b) hsame).mpr hmem

theorem BanList.remove_eq {l : BanList} {b : Ban} (h : ∀ c ∈ l.list, c.same b = false) :
    (l.remove b).list = l.list :=
  List.eraseP_of_forall_not fun c hc => by simp [h c hc]

/-- A mask and a shorter one, or none, take the same off a list exactly when neither is on it. -/
theorem BanList.remove_iff (l : BanList) {b : Ban} {b' : Option Ban}
    (hlen : ∀ d, b' = some d → d.text.length < b.text.length) :
    (∀ c, c ∈ (l.remove b).list ↔ c ∈ (b'.elim l l.remove).list) ↔
      ∀ d, d = b ∨ b' = some d → ∀ cbp ∈ l.list, cbp.same d = false := by
  constructor
  · intro hsame d hd cbp hmem
    by_contra hne
    obtain ⟨c, hc, hcd, hgone⟩ := exists_not_mem_remove hmem (Bool.of_not_eq_false hne)
    have hlenc := Ban.length_text_of_same hcd
    rcases hd with rfl | rfl
    · -- `c` is as long as the longer mask, so the shorter one leaves it
      refine hgone ((hsame c).mpr ?_)
      cases b' with
      | none => exact hc
      | some d' =>
        have hlt := hlen d' rfl
        exact mem_remove_of_length hc (by omega)
    · have hlt := hlen d rfl
      exact hgone ((hsame c).mp (mem_remove_of_length hc (by omega)))
  · intro hnone c
    rw [remove_eq (hnone b (.inl rfl))]
    cases b' with
    | none => rfl
    | some d => rw [Option.elim_some, remove_eq (hnone d (.inr rfl))]

/-! ### The mode of the argument that is not a word -/

/-- What the servers hold of the mode `loose` is the same; a key may differ if the mode string sets
one. -/
def SameLoose (s : Relay) (loose : Option UInt8) (x y : Bool × BanList × Bytes) : Prop :=
  ∀ m, loose = some m →
    (s.t.kind m = some .ban → ∀ b, b ∈ x.2.1.list ↔ b ∈ y.2.1.list) ∧
      (s.t.kind m = some .key → ¬ KeySet s.t (trimSign (s.loop s.modes).result) m →
        y.1 = x.1 ∧ y.2.2 = x.2.2)

section

variable {t : ModeTable} {cl : Clients} {a : Actor} {x z : Chan} {c : UInt8} {w : Bytes}
  {arg : Option Bytes} {b : Ban}

/-- A mask that is put on a list is the one that was given. -/
theorem mem_bans_set (hkind : t.kind c = some .ban)
    (h : b ∈ ((changeMode t cl none z c true arg).chan.bans c).list) :
    b ∈ (z.bans c).list ∨ arg.bind banMask = some b := by
  by_cases hok : (changeMode t cl none z c true arg).res = .ok
  · simp only [changeMode, hkind] at hok h
    obtain ⟨v, d, rfl, hd, ⟨-, hnew, hres⟩ | ⟨hset, -⟩⟩ := chanmodeBan_ok hok
    · rw [changefunc, hres] at h
      simp only [Chan.setBans, Function.update_self, BanList.insert, List.mem_cons] at h
      rcases h with rfl | h
      · exact .inr hd
      · exact .inl h
    · cases hset
  · rw [changeMode_chan hok] at h
    exact .inl h

theorem bans_unset_none (hkind : t.kind c = some .ban) :
    (changeMode t cl none z c false arg).chan.bans c =
      (arg.bind banMask).elim (z.bans c) (z.bans c).remove := by
  simp only [changeMode, hkind, changefunc]
  cases arg with
  | none => rfl
  | some v =>
    rw [Option.bind_some]
    cases hb : banMask v with
    | none => simp [chanmodeBan, denied, hb]
    | some b => simp [chanmodeBan, denied, hb, Chan.setBans]

/-- A ban that is set is missing at the other server. -/
theorem ban_set_ne (second : Clients) (hkind : t.kind c = some .ban) (hbans : z.bans c = x.bans c)
    (hword : ¬ Word isSpace colon w)
    (hok : (changeMode t cl (some a) x c true (some w)).res = .ok) :
    ¬ ∀ b, b ∈ ((changeMode t cl (some a) x c true (some w)).chan.bans c).list ↔
      b ∈ ((changeMode t second none z c true (firstArg w)).chan.bans c).list := by
  intro hsame
  simp only [changeMode, hkind] at hok
  obtain ⟨v, b, hv, hb, ⟨-, hnew, hres⟩ | ⟨hset, -⟩⟩ := chanmodeBan_ok hok
  · obtain rfl := Option.some.inj hv
    have hmem : b ∈ ((changeMode t cl (some a) x c true (some w)).chan.bans c).list := by
      simp only [changeMode, hkind]
      rw [changefunc, hres]
      simp [Chan.setBans, BanList.insert]
    rcases mem_bans_set hkind ((hsame b).mp hmem) with hold | hfirst
    · have hself := hnew b (hbans ▸ hold)
      rw [Ban.same_refl] at hself
      cases hself
    · obtain ⟨v, hfirst, hb'⟩ := Option.bind_eq_some_iff.mp hfirst
      have hlen := length_lt_of_firstArg hword hfirst
      rw [← text_of_banMask hb, ← text_of_banMask hb'] at hlen
      exact lt_irrefl _ hlen
  · cases hset

/-- A ban that is taken off is taken off at the other server exactly when neither it nor what
arrives is on the list. -/
theorem ban_unset_iff (second : Clients) (hkind : t.kind c = some .ban)
    (hbans : z.bans c = x.bans c) (hword : ¬ Word isSpace colon w)
    (hok : (changeMode t cl (some a) x c false (some w)).res = .ok) :
    (∀ b, b ∈ ((changeMode t cl (some a) x c false (some w)).chan.bans c).list ↔
        b ∈ ((changeMode t second none z c false (firstArg w)).chan.bans c).list) ↔
      ∀ v b, v = w ∨ firstArg w = some v → banMask v = some b →
        ∀ cbp ∈ (x.bans c).list, cbp.same b = false := by
  simp only [changeMode, hkind] at hok
  obtain ⟨v, b, hv, hb, ⟨hset, -⟩ | ⟨-, hres⟩⟩ := chanmodeBan_ok hok
  · cases hset
  · obtain rfl := Option.some.inj hv
    have hours : (changeMode t cl (some a) x c false (some w)).chan.bans c =
        (x.bans c).remove b := by
      simp only [changeMode, hkind]
      rw [changefunc, hres]
      simp [Chan.setBans]
    have hlen : ∀ d, (firstArg w).bind banMask = some d → d.text.length < b.text.length := by
      intro d hd
      obtain ⟨v, hfirst, hd⟩ := Option.bind_eq_some_iff.mp hd
      rw [text_of_banMask hb, text_of_banMask hd]
      exact length_lt_of_firstArg hword hfirst
    rw [hours, bans_unset_none hkind, hbans, (x.bans c).remove_iff hlen]
    constructor
    · rintro hnone v d hv hd
      refine hnone d ?_
      rcases hv with rfl | hv
      · exact .inl (Option.some.inj (hd.symm.trans hb))
      · exact .inr (by rw [hv, Option.bind_some, hd])
    · rintro hnone d (rfl | hd)
      · exact hnone w d (.inl rfl) hb
      · obtain ⟨v, hfirst, hd⟩ := Option.bind_eq_some_iff.mp hd
        exact hnone v d (.inr hfirst) hd

/-- A key that is taken off is taken off at the other server, unless nothing arrives there. -/
theorem key_unset_iff (second : Clients) (hkind : t.kind c = some .key)
    (hmodes : z.modes c = x.modes c) (hkey : z.key c = x.key c)
    (hok : (changeMode t cl (some a) x c false (some w)).res = .ok) :
    ((changeMode t second none z c false (firstArg w)).chan.modes c =
          (changeMode t cl (some a) x c false (some w)).chan.modes c ∧
        (changeMode t second none z c false (firstArg w)).chan.key c =
          (changeMode t cl (some a) x c false (some w)).chan.key c) ↔
      firstArg w ≠ none ∨ (x.modes c = false ∧ x.key c = []) := by
  simp only [changeMode, hkind] at hok ⊢
  obtain ⟨v, hv, -, ⟨hset, -⟩ | ⟨-, hres⟩⟩ := chanmodeKey_ok hok
  · cases hset
  · rw [changefunc, changefunc, hres]
    cases firstArg w with
    | none => simp [chanmodeKey, Chan.setKey, Chan.setFlag, hmodes, hkey]
    | some v => simp [chanmodeKey, denied, Chan.setKey, Chan.setFlag]

end

variable {s : Relay} {st : ModeLoop} {sent : Bytes} {ws : List Bytes} {c : UInt8}

/-- Behind an argument that is not a word its mode is the same at both servers exactly when the byte
meets its condition. -/
theorem Before.sameLoose_iff (h : Before s st sent ws) {hd : Handled} {w : Bytes}
    (hacc : st.accepted s.t s.cl (some s.actor) c = some hd) (hused : hd.argused = some w)
    (hw : ¬ IsWord w) {z : Chan} (hz : Mirrors (KeySet s.t sent) st.chan z)
    (hlater : ∀ m, KeySet s.t (st.result ++ [c]) m →
      KeySet s.t (trimSign (s.loop s.modes).result) m) :
    SameLoose s (if s.t.kind c = some .limit then none else some c) (hd.chan.held c)
        ((changeMode s.t s.second none z c st.plus (firstArg w)).chan.held c) ↔ s.ArgOk st c w := by
  have hc := isModeChar_of_accepted hacc
  obtain ⟨hargs, hnotWord, -, hkind⟩ := h.of_not_isWord hacc hused hw
  obtain ⟨-, hhd, hok⟩ := ModeLoop.accepted_eq_some.mp hacc
  rw [hargs, List.head?_cons] at hhd
  rw [← hhd] at hok ⊢
  rcases hkind with hkind | hkind | hkind
  · have hbans := hz.bans c (not_keySet_of_ban hkind)
    simp only [SameLoose, Relay.ArgOk, Chan.held, hkind, hw, false_or]
    cases hplus : st.plus with
    | true =>
      rw [hplus] at hok
      have hne := ban_set_ne s.second hkind hbans hnotWord hok
      simpa [hkind] using hne
    | false =>
      rw [hplus] at hok
      have hiff := ban_unset_iff s.second hkind hbans hnotWord hok
      simpa [hkind] using hiff
  · simp only [SameLoose, Relay.ArgOk, Chan.held, hkind]
    cases hplus : st.plus with
    | true =>
      have hset := hlater c ((keySet_append h.shape hc c).mpr (.inr ⟨hkind, hplus, rfl⟩))
      simp [hset, hkind]
    | false =>
      rw [hplus] at hok
      by_cases hset : KeySet s.t (trimSign (s.loop s.modes).result) c
      · simp [hset, hkind]
      · have hsent : ¬ KeySet s.t sent c := fun hsent =>
          hset (hlater c ((keySet_append h.shape hc c).mpr (.inl hsent)))
        have hiff := key_unset_iff s.second hkind (hz.modes c hsent)
          (hz.key c hsent) hok
        simpa [hset, hkind] using hiff
  · simp [SameLoose, Relay.ArgOk, hkind]

/-! ### The run of our loop -/

namespace Relay

theorem loop_append (s : Relay) (p : Bytes) (c : UInt8) :
    s.loop (p ++ [c]) = modeChar s.t s.cl (some s.actor) (s.loop p) c := by
  rw [loop, List.foldl_append]
  rfl

/-- What the next byte does to our loop. -/
theorem loop_cases (s : Relay) (p : Bytes) (c : UInt8) :
    (∃ args skip, (args = (s.loop p).args ∨ args = (s.loop p).args.tail) ∧
        (s.loop p).accepted s.t s.cl (some s.actor) c = none ∧
        s.loop (p ++ [c]) = { s.loop p with args := args, skip := skip }) ∨
      ((s.loop p).accepted s.t s.cl (some s.actor) c = none ∧ s.loop (p ++ [c]) =
        { s.loop p with
          plus := !(s.loop p).plus
          result := putSign (s.loop p).result (signByte !(s.loop p).plus)
            (signByte (s.loop p).plus) }) ∨
      ∃ hd, (s.loop p).accepted s.t s.cl (some s.actor) c = some hd ∧
        s.loop (p ++ [c]) = (s.loop p).after c hd := by
  rw [loop_append]
  exact modeChar_cases s.t s.cl (some s.actor) (s.loop p) c

theorem loop_append_of_accepted {p : Bytes} {hd : Handled}
    (h : (s.loop p).accepted s.t s.cl (some s.actor) c = some hd) :
    s.loop (p ++ [c]) = (s.loop p).after c hd := by
  obtain ⟨hreach, rfl, -⟩ := ModeLoop.accepted_eq_some.mp h
  rw [loop_append, modeChar_of_reaches hreach]

theorem exists_shape (s : Relay) (p : Bytes) : ∃ sent, Shape (s.loop p) sent := by
  induction p using List.reverseRecOn with
  | nil => exact ⟨[], Shape.start _ _⟩
  | append_singleton p c ih =>
    obtain ⟨sent, hshape⟩ := ih
    rcases s.loop_cases p c with
      ⟨args, skip, -, -, heq⟩ | ⟨-, heq⟩ | ⟨hd, hacc, heq⟩
    · rw [heq]
      exact ⟨sent, hshape.result, hshape.two_le, hshape.chars, hshape.length_le⟩
    · rw [heq]
      exact ⟨sent, hshape.sign⟩
    · rw [heq]
      obtain ⟨-, -, hok⟩ := ModeLoop.accepted_eq_some.mp hacc
      exact ⟨_, hshape.accept hok (isModeChar_of_accepted hacc)⟩

/-- Nothing is taken out of `rbuf`. -/
theorem length_rbuf_le (s : Relay) (p q : Bytes) :
    (s.loop p).rbuf.length ≤ (s.loop (p ++ q)).rbuf.length := by
  induction q using List.reverseRecOn with
  | nil => rw [List.append_nil]
  | append_singleton q c ih =>
    rw [← List.append_assoc]
    refine ih.trans ?_
    rcases s.loop_cases (p ++ q) c with
      ⟨args, skip, -, -, heq⟩ | ⟨-, heq⟩ | ⟨hd, hacc, heq⟩
    · rw [heq]
    · rw [heq]
    · obtain ⟨-, -, hok⟩ := ModeLoop.accepted_eq_some.mp hacc
      rw [heq, ModeLoop.after]
      cases hd.argused with
      | none => exact le_rfl
      | some w => simp [hok]

/-- A key that has been set is set by what is sent. -/
theorem keySet_final {s : Relay} {p q : Bytes} (hpq : p ++ q = s.modes) {m : UInt8}
    (h : KeySet s.t (s.loop p).result m) : KeySet s.t (trimSign (s.loop s.modes).result) m := by
  have hrun : ∀ q, KeySet s.t (s.loop (p ++ q)).result m := by
    intro q
    induction q using List.reverseRecOn with
    | nil => rwa [List.append_nil]
    | append_singleton q c ih =>
      obtain ⟨sent, hshape⟩ := s.exists_shape (p ++ q)
      rw [← List.append_assoc]
      rcases s.loop_cases (p ++ q) c with
        ⟨args, skip, -, -, heq⟩ | ⟨-, heq⟩ | ⟨hd, hacc, heq⟩
      · rw [heq]
        exact ih
      · rw [KeySet, hshape.scan] at ih
        rw [heq, KeySet, hshape.sign.scan]
        exact ih
      · obtain ⟨-, -, hok⟩ := ModeLoop.accepted_eq_some.mp hacc
        rw [KeySet, hshape.scan] at ih
        have hresult : ((s.loop (p ++ q)).after c hd).result = (s.loop (p ++ q)).result ++ [c] :=
          if_pos hok
        rw [heq, hresult, keySet_append hshape (isModeChar_of_accepted hacc)]
        exact .inl ih
  obtain ⟨sent, hshape⟩ := s.exists_shape s.modes
  have hend := hrun q
  rw [hpq, KeySet, hshape.scan] at hend
  rwa [hshape.trimSign_result]

/-- The bytes of a part of the mode string meet their condition. -/
def OkUpTo (s : Relay) (p : Bytes) : Prop :=
  ∀ before c behind, p = before ++ c :: behind → s.StepOk (s.loop before) c

theorem okUpTo_nil (s : Relay) : s.OkUpTo [] := by
  intro before c behind h
  simp at h

theorem okUpTo_append (s : Relay) (p : Bytes) (c : UInt8) :
    s.OkUpTo (p ++ [c]) ↔ s.OkUpTo p ∧ s.StepOk (s.loop p) c := by
  constructor
  · intro h
    refine ⟨fun before d behind hp => h before d (behind ++ [c]) ?_, h p c [] rfl⟩
    rw [hp, List.append_assoc, List.cons_append]
  · rintro ⟨hp, hc⟩ before d behind heq
    rcases List.eq_nil_or_concat behind with rfl | ⟨behind, e, rfl⟩
    · obtain ⟨rfl, hdc⟩ := List.append_inj' heq rfl
      obtain rfl := (List.cons.inj hdc).1
      exact hc
    · rw [List.concat_eq_append, ← List.cons_append, ← List.append_assoc] at heq
      obtain ⟨rfl, -⟩ := List.append_inj' heq rfl
      exact hp before d behind rfl

/-- A byte that is no accepted change meets its condition. -/
theorem stepOk_of_none {s : Relay} {st : ModeLoop}
    (h : st.accepted s.t s.cl (some s.actor) c = none) : s.StepOk st c := by
  intro hd w hacc
  rw [h] at hacc
  cases hacc

theorem stepOk_of_argused {s : Relay} {st : ModeLoop} {hd : Handled}
    (hacc : st.accepted s.t s.cl (some s.actor) c = some hd) (hused : hd.argused = none) :
    s.StepOk st c := by
  intro hd' w hacc' hw
  rw [hacc] at hacc'
  obtain rfl := Option.some.inj hacc'
  rw [hused] at hw
  cases hw

theorem stepOk_iff {s : Relay} {st : ModeLoop} {hd : Handled} {w : Bytes}
    (hacc : st.accepted s.t s.cl (some s.actor) c = some hd) (hused : hd.argused = some w) :
    s.StepOk st c ↔ st.rbuf.length + 1 + w.length < RBUF_SIZE ∧ s.ArgOk st c w := by
  constructor
  · intro h
    exact h hd w hacc hused
  · intro h hd' w' hacc' hused'
    rw [hacc] at hacc'
    obtain rfl := Option.some.inj hacc'
    rw [hused] at hused'
    obtain rfl := Option.some.inj hused'
    exact h

theorem argOk_of_isWord (s : Relay) (st : ModeLoop) (c : UInt8) {w : Bytes} (h : IsWord w) :
    s.ArgOk st c w := by
  unfold ArgOk
  split
  · exact .inl h
  · exact .inr (.inl (by simp [firstArg_of_isWord h]))
  · trivial

/-- An argument that is passed on has gone into `rbuf`. -/
theorem length_rbuf_of_argused {s : Relay} {p : Bytes} {hd : Handled} {w : Bytes}
    (hacc : (s.loop p).accepted s.t s.cl (some s.actor) c = some hd) (hused : hd.argused = some w) :
    (s.loop (p ++ [c])).rbuf.length = (s.loop p).rbuf.length + 1 + w.length := by
  obtain ⟨-, -, hok⟩ := ModeLoop.accepted_eq_some.mp hacc
  rw [loop_append_of_accepted hacc, ModeLoop.after, hused]
  simp only [if_pos hok, List.length_append, List.length_cons]
  omega

/-- How the other server follows behind a part of the mode string. -/
inductive Stage (s : Relay) (p : Bytes) : Prop
  | before (sent : Bytes) (ws : List Bytes) : Before s (s.loop p) sent ws → s.OkUpTo p → Stage s p
  | behind (sent : Bytes) (ws : List Bytes) (d : Bytes) (loose : Option UInt8)
      (x y : Bool × BanList × Bytes) : Behind s (s.loop p) sent ws d loose x y →
      (SameLoose s loose x y ↔ s.OkUpTo p) → Stage s p

/-- A byte that is no accepted change. -/
theorem Stage.quiet {s : Relay} {p : Bytes} (h : s.Stage p) {args : List Bytes} {skip : Bool}
    (hargs : args = (s.loop p).args ∨ args = (s.loop p).args.tail)
    (hnone : (s.loop p).accepted s.t s.cl (some s.actor) c = none)
    (heq : s.loop (p ++ [c]) = { s.loop p with args := args, skip := skip }) :
    s.Stage (p ++ [c]) := by
  have hok : s.OkUpTo (p ++ [c]) ↔ s.OkUpTo p := by
    rw [okUpTo_append, and_iff_left (stepOk_of_none hnone)]
  cases h with
  | before sent ws hb hp =>
    exact .before sent ws (heq ▸ hb.quiet hargs) (hok.mpr hp)
  | behind sent ws d loose x y hb hp =>
    exact .behind sent ws d loose x y (heq ▸ hb.quiet hargs) (hp.trans hok.symm)

/-- A byte that changes the sign. -/
theorem Stage.sign {s : Relay} {p : Bytes} (h : s.Stage p)
    (hnone : (s.loop p).accepted s.t s.cl (some s.actor) c = none)
    (heq : s.loop (p ++ [c]) = { s.loop p with
      plus := !(s.loop p).plus
      result := putSign (s.loop p).result (signByte !(s.loop p).plus)
        (signByte (s.loop p).plus) }) :
    s.Stage (p ++ [c]) := by
  have hok : s.OkUpTo (p ++ [c]) ↔ s.OkUpTo p := by
    rw [okUpTo_append, and_iff_left (stepOk_of_none hnone)]
  cases h with
  | before sent ws hb hp =>
    exact .before sent ws (heq ▸ hb.sign) (hok.mpr hp)
  | behind sent ws d loose x y hb hp =>
    exact .behind sent ws d loose x y (heq ▸ hb.sign) (hp.trans hok.symm)

/-- An accepted change, with room for its argument. -/
theorem Stage.accept {s : Relay} {p q : Bytes} (h : s.Stage p) {hd : Handled}
    (hpq : p ++ [c] ++ q = s.modes) (hroom : (s.loop (p ++ [c])).rbuf.length < RBUF_SIZE)
    (hacc : (s.loop p).accepted s.t s.cl (some s.actor) c = some hd) : s.Stage (p ++ [c]) := by
  have hloop := loop_append_of_accepted hacc
  cases h with
  | before sent ws hb hp =>
    by_cases hword : ∀ w, hd.argused = some w → IsWord w
    · refine .before _ _ (hloop ▸ hb.accept hacc hword) ((okUpTo_append s p c).mpr ⟨hp, ?_⟩)
      intro hd' w hacc' hused
      rw [hacc] at hacc'
      obtain rfl := Option.some.inj hacc'
      rw [length_rbuf_of_argused hacc hused] at hroom
      exact ⟨hroom, s.argOk_of_isWord _ c (hword w hused)⟩
    · simp only [not_forall] at hword
      obtain ⟨w, hused, hw⟩ := hword
      rw [length_rbuf_of_argused hacc hused] at hroom
      have hflat : (flatWords (ws ++ [w])).length < RBUF_SIZE := by
        have hone : (flatWords [w]).length = w.length + 1 := by simp [flatWords]
        rw [flatWords_append, List.length_append, hone, ← hb.rbuf]
        omega
      obtain ⟨z, hz, hbehind⟩ := hb.dirty hacc hused hw hflat
      refine .behind _ _ _ _ _ _ (hloop ▸ hbehind) ?_
      have hlater : ∀ m, KeySet s.t ((s.loop p).result ++ [c]) m →
          KeySet s.t (trimSign (s.loop s.modes).result) m := by
        intro m hm
        obtain ⟨-, -, hok⟩ := ModeLoop.accepted_eq_some.mp hacc
        have hresult : ((s.loop p).after c hd).result = (s.loop p).result ++ [c] := if_pos hok
        rw [← hresult, ← hloop] at hm
        exact keySet_final hpq hm
      rw [hb.sameLoose_iff hacc hused hw hz hlater, okUpTo_append, stepOk_iff hacc hused]
      simp only [hp, hroom, true_and]
  | behind sent ws d loose x y hb hp =>
    refine .behind _ _ _ _ _ _ (hloop ▸ hb.accept hacc) (hp.trans ?_)
    rw [okUpTo_append, and_iff_left (stepOk_of_argused hacc (hb.argused_eq_none hacc))]

/-- As long as `rbuf` has room for everything, the other server follows behind every part of the
mode string. -/
theorem stage {s : Relay} (hroom : (s.loop s.modes).rbuf.length < RBUF_SIZE) {p q : Bytes}
    (hpq : p ++ q = s.modes) : s.Stage p := by
  induction p using List.reverseRecOn generalizing q with
  | nil => exact .before [] [] (Before.start s) (okUpTo_nil s)
  | append_singleton p c ih =>
    have hp := ih (q := c :: q) (by rw [← hpq, List.append_assoc]; rfl)
    rcases s.loop_cases p c with
      ⟨args, skip, hargs, hnone, heq⟩ | ⟨hnone, heq⟩ | ⟨hd, hacc, -⟩
    · exact hp.quiet hargs hnone heq
    · exact hp.sign hnone heq
    · have hle := s.length_rbuf_le (p ++ [c]) q
      rw [hpq] at hle
      exact hp.accept hpq (hle.trans_lt hroom) hacc

/-- Every byte meets its condition only if `rbuf` has room for everything. -/
theorem rbuf_of_okUpTo {s : Relay} {p : Bytes} (h : s.OkUpTo p) :
    (s.loop p).rbuf.length < RBUF_SIZE := by
  induction p using List.reverseRecOn with
  | nil =>
    show 0 < RBUF_SIZE
    decide
  | append_singleton p c ih =>
    obtain ⟨hp, hc⟩ := (okUpTo_append s p c).mp h
    have hlt := ih hp
    rcases s.loop_cases p c with
      ⟨args, skip, -, -, heq⟩ | ⟨-, heq⟩ | ⟨hd, hacc, heq⟩
    · rwa [heq]
    · rwa [heq]
    · cases hused : hd.argused with
      | none =>
        rw [heq, ModeLoop.after, hused]
        exact hlt
      | some w =>
        rw [length_rbuf_of_argused hacc hused]
        exact (hc hd w hacc hused).1

theorem created_loop (s : Relay) (p : Bytes) : (s.loop p).chan.created = s.chan.created := by
  induction p using List.reverseRecOn with
  | nil => rfl
  | append_singleton p c ih =>
    rcases s.loop_cases p c with
      ⟨args, skip, -, -, heq⟩ | ⟨-, heq⟩ | ⟨hd, hacc, heq⟩
    · rwa [heq]
    · rwa [heq]
    · obtain ⟨-, rfl, -⟩ := ModeLoop.accepted_eq_some.mp hacc
      rw [heq]
      exact changeMode_created.trans ih

/-- The sender of the line is known to the other server. -/
theorem find_sender (s : Relay) :
    s.origins.find (s.cl.nick s.actor.id) = some (.client (s.cl.nick s.actor.id)) := by
  rw [Origins.find, if_neg (s.cl.nick_dot _ s.actor_online), if_pos s.known]

theorem ours_of_fits {s : Relay} (hrbuf : (s.loop s.modes).rbuf.length < RBUF_SIZE)
    (hresult : (s.loop s.modes).result.length < 64) : s.ours = some (s.loop s.modes).change :=
  changeModes_of_fits hrbuf hresult

theorem length_result_lt {s : Relay} (hmax : (s.loop s.modes).mset ≤ MAXMODES) :
    (s.loop s.modes).result.length < 64 := by
  obtain ⟨sent, hshape⟩ := s.exists_shape s.modes
  have hresult := hshape.length_result
  simp only [MAXMODES] at hmax
  omega

/-- What the other server holds in the end is what its loop comes to. -/
theorem theirs_eq {s : Relay} (hcreated : 0 ≤ s.chan.created ∧ s.chan.created < 2147483648)
    {sent r : Bytes} {ws args : List Bytes} {aside : UInt8 → Prop}
    (hshape : Shape (s.loop s.modes) sent) (hmax : (s.loop s.modes).mset ≤ MAXMODES)
    (hrbuf : (s.loop s.modes).rbuf = flatWords ws ++ r)
    (hroom : (s.loop s.modes).rbuf.length < RBUF_SIZE) (hws : ∀ w ∈ ws, IsWord w)
    (hr : Rest isSpace r) (htext : IsText r) (hcount : ws.length ≤ 6)
    (hargs : args = ws ++ fieldsRaw isSpace colon (10 - ws.length) (trim isSpace r))
    (htracks : Tracks aside (s.loop s.modes) sent (relayLoop s.t s.second s.chan args sent)) :
    s.theirs (s.loop s.modes).change = some (relayLoop s.t s.second s.chan args sent).chan := by
  by_cases hsent : sent = []
  · have htwo : ¬ 2 ≤ (s.loop s.modes).result.length := by
      rw [hshape.two_le_result]
      exact fun h => h hsent
    rw [theirs, ModeLoop.change, if_neg htwo, hsent]
    rfl
  · have htwo := hshape.two_le_result.mpr hsent
    have hlen := hshape.length_le
    have hnick := s.cl.nick_length _ s.actor_online
    have hname := s.name_length
    have hts := length_printLong_le s.chan.created
    have hrelay := length_result_relayLoop_le s.t s.second s.chan args sent
    have hrelayRoom := htracks.roomy.room
    simp only [MAXMODES] at hmax
    simp only [NICKLEN] at hnick
    simp only [CHANLEN] at hname
    rw [theirs, ModeLoop.change, if_pos htwo, hshape.trimSign_result, s.created_loop, hrbuf]
    rw [hrbuf] at hroom
    simp only [RBUF_SIZE] at hroom
    dsimp only
    rw [receiveMode_modeLine s.t s.second s.last s.chan (s.cl.nick_isWord _ s.actor_online)
      s.find_sender s.name_isWord (isWord_printLong hcreated.1 hcreated.2) (hshape.isWord hsent) hws
      hr htext hcount (by omega), strConvInt_printLong hcreated.1 hcreated.2, channelMode_created,
      ← hargs]
    have hchange : changeModes s.t s.second none s.chan sent args =
        some (relayLoop s.t s.second s.chan args sent).change := by
      refine changeModes_of_fits ?_ ?_
      · exact (Nat.le_add_right _ _).trans_lt hrelayRoom
      · exact hrelay.trans_lt (by omega)
    rw [hchange]
    rfl

/-- What the servers hold is the same when the mode that is loose is. -/
theorem sameModes_iff {s : Relay} {loose : Option UInt8} {x y : Bool × BanList × Bytes}
    {st r : ModeLoop} {sent : Bytes}
    (hloose : ∀ m, loose = some m → s.t.kind m = some .ban ∨ s.t.kind m = some .key)
    (htracks : Tracks (fun m => KeySet s.t sent m ∨ loose = some m) st sent r)
    (hx : ∀ m, loose = some m → st.chan.held m = x) (hy : ∀ m, loose = some m → r.chan.held m = y)
    (hsent : sent = trimSign (s.loop s.modes).result) :
    SameModes s.t (KeySet s.t sent) st.chan r.chan ↔ SameLoose s loose x y := by
  obtain ⟨-, -, hchan⟩ := htracks
  constructor
  · intro hsame m hm
    have hmode := hsame m
    rw [← hx m hm, ← hy m hm, ← hsent]
    simp only [Chan.held]
    refine ⟨fun hkind => ?_, fun hkind hset => ?_⟩
    · simpa [hkind] using hmode
    · simpa [hkind, hset] using hmode
  · intro hsame m k hkind
    have hother : loose ≠ some m → k ≠ .key →
        r.chan.modes m = st.chan.modes m ∧ r.chan.bans m = st.chan.bans m := by
      intro hm hkey
      have haside : ¬ (KeySet s.t sent m ∨ loose = some m) := by
        rintro (hset | hset)
        · exact hkey (Option.some.inj (hkind.symm.trans hset.1))
        · exact hm hset
      exact ⟨hchan.modes m haside, hchan.bans m haside⟩
    have hnot : k ≠ .ban → k ≠ .key → loose ≠ some m := by
      intro hban hkey hm
      rcases hloose m hm with hm | hm
      · exact hban (Option.some.inj (hkind.symm.trans hm))
      · exact hkey (Option.some.inj (hkind.symm.trans hm))
    cases k with
    | ban =>
      intro b
      by_cases hm : loose = some m
      · have hsame' := (hsame m hm).1 hkind b
        rwa [← hx m hm, ← hy m hm] at hsame'
      · rw [(hother hm (by simp)).2]
    | key =>
      intro hset
      by_cases hm : loose = some m
      · have hsame' := (hsame m hm).2 hkind (hsent ▸ hset)
        rwa [← hx m hm, ← hy m hm] at hsame'
      · have haside : ¬ (KeySet s.t sent m ∨ loose = some m) := not_or.mpr ⟨hset, hm⟩
        exact ⟨hchan.modes m haside, hchan.key m haside⟩
    | limit => exact ⟨(hother (hnot (by simp) (by simp)) (by simp)).1, by rw [hchan.limit]⟩
    | flag => exact (hother (hnot (by simp) (by simp)) (by simp)).1
    | reg => exact (hother (hnot (by simp) (by simp)) (by simp)).1
    | uflag =>
      intro u _
      rw [hchan.uflags]

/-- Behind the whole mode string the other server has what our server has, exactly when every byte
has met its condition. -/
theorem Stage.sameModes_iff {s : Relay} (h : s.Stage s.modes)
    (hcreated : 0 ≤ s.chan.created ∧ s.chan.created < 2147483648)
    (hroom : (s.loop s.modes).rbuf.length < RBUF_SIZE) :
    ∃ sent y, trimSign (s.loop s.modes).result = sent ∧
      s.theirs (s.loop s.modes).change = some y ∧
      (SameModes s.t (KeySet s.t sent) (s.loop s.modes).chan y ↔ s.Ok) := by
  cases h with
  | before sent ws hb hok =>
    have hnil : flatWords (ws ++ []) = (s.loop s.modes).rbuf := by rw [List.append_nil, hb.rbuf]
    obtain ⟨htracks, -⟩ := hb.tracks [] (by rwa [hnil])
    have htheirs := theirs_eq (r := []) hcreated hb.shape hb.max
      (by rw [hb.rbuf, List.append_nil]) hroom hb.words trivial (by simp [IsText])
      (hb.length_le.trans hb.max) (by cases 10 - ws.length <;> rfl) htracks
    have hsame : _ ↔ SameLoose s none (false, ⟨[], .nil⟩, []) (false, ⟨[], .nil⟩, []) :=
      Relay.sameModes_iff (by simp)
        ⟨htracks.roomy, htracks.plus, htracks.chan.mono fun m hm => .inl hm⟩ (by simp) (by simp)
      hb.shape.trimSign_result.symm
    refine ⟨sent, _, hb.shape.trimSign_result, htheirs, hsame.trans ⟨fun _ => hok, fun _ => ?_⟩⟩
    intro m hm
    cases hm
  | behind sent ws d loose x y hb hok =>
    have hflat : (s.loop s.modes).rbuf = flatWords ws ++ blank :: d := by
      rw [hb.rbuf, flatWords_append]
      simp [flatWords]
    have htext : IsText (blank :: d) := by simpa using ⟨by decide, hb.text⟩
    have htheirs := theirs_eq hcreated hb.shape hb.max hflat hroom hb.words
      (show Rest isSpace (blank :: d) from rfl) htext (hb.length_lt.le.trans hb.max) rfl hb.tracks
    exact ⟨sent, _, hb.shape.trimSign_result, htheirs,
      (Relay.sameModes_iff hb.loose_kind hb.tracks hb.ours hb.theirs
        hb.shape.trimSign_result.symm).trans hok⟩

theorem Stage.max {s : Relay} {p : Bytes} (h : s.Stage p) : (s.loop p).mset ≤ MAXMODES := by
  cases h with
  | before sent ws hb _ => exact hb.max
  | behind sent ws d loose x y hb _ => exact hb.max

theorem aside_change (s : Relay) {sent : Bytes} (h : trimSign (s.loop s.modes).result = sent) :
    s.Aside (s.loop s.modes).change = KeySet s.t sent := by
  funext m
  apply propext
  obtain ⟨sent', hshape⟩ := s.exists_shape s.modes
  rw [hshape.trimSign_result] at h
  subst h
  have htwo := hshape.two_le_result
  simp only [Aside, ModeLoop.change, hshape.trimSign_result]
  by_cases hsent : sent' = []
  · rw [if_neg (by rw [htwo]; exact fun hne => hne hsent), hsent]
    constructor
    · rintro ⟨_, ⟨⟩, -⟩
    · rintro ⟨-, ⟨⟩⟩
  · rw [if_pos (htwo.mpr hsent)]
    constructor
    · rintro ⟨_, hsome, hkey⟩
      obtain rfl := Option.some.inj hsome
      exact hkey
    · exact fun hkey => ⟨_, rfl, hkey⟩

/-- The other server ends with our modes exactly when there is room for every argument that is
passed on, and it has its effect there.  The timestamp of the channel has to be an `int`. -/
theorem faithful_iff (s : Relay)
    (hcreated : 0 ≤ s.chan.created ∧ s.chan.created < 2147483648) : s.Faithful ↔ s.Ok := by
  by_cases hroom : (s.loop s.modes).rbuf.length < RBUF_SIZE
  · have hstage : s.Stage s.modes := stage hroom (List.append_nil s.modes)
    obtain ⟨sent, y, hsent, htheirs, hiff⟩ := hstage.sameModes_iff hcreated hroom
    have hours := ours_of_fits hroom (length_result_lt hstage.max)
    rw [← hiff, Faithful]
    constructor
    · rintro ⟨c, y', hc, hy, hsame⟩
      obtain rfl := Option.some.inj (hours.symm.trans hc)
      obtain rfl := Option.some.inj (htheirs.symm.trans hy)
      rwa [s.aside_change hsent] at hsame
    · intro hsame
      refine ⟨_, y, hours, htheirs, ?_⟩
      rwa [s.aside_change hsent]
  · have hnone : s.ours = none := if_neg fun hfits => hroom hfits.1
    constructor
    · rintro ⟨c, y, hc, -⟩
      rw [hnone] at hc
      cases hc
    · exact fun hok => absurd (rbuf_of_okUpTo hok) hroom

/-- An operator sets a ban. -/
def banRelay (mask : Bytes) (h : IsText mask) : Relay where
  t := coreModes
  cl := oneClient
  second := oneClient
  net := ⟨by decide, by decide⟩
  actor := ⟨0, false⟩
  actor_online := by decide
  chan :=
    { created := 5
      modes := fun _ => false
      bans := fun _ => ⟨[], distinct_nil⟩
      key := fun _ => []
      limit := fun _ => 0
      users := [0]
      uflags := fun _ m => m == 111 }
  name := bytes "#c"
  name_isWord := isWord_hashC
  name_length := length_hashC
  origins := ⟨fun _ => false, fun s => s == bytes "a"⟩
  known := by decide
  last := fun _ => 0
  modes := bytes "+b"
  args := [mask]
  args_isWord := by simp
  args_isText := by simpa using h

theorem faithful_iff_word :
    (banRelay (bytes "x!y@z") (by decide)).Faithful ↔ (banRelay (bytes "x!y@z") (by decide)).Ok :=
  faithful_iff _ ⟨by decide, by decide⟩

/-- The blank ends the mask at the other server, which bans `x!y@a` instead of `x!y@a b`. -/
theorem blank_not_faithful : ¬ (banRelay (bytes "x!y@a b") (by decide)).Faithful := by
  rintro ⟨c, y, hc, hy, hsame⟩
  have hours : (banRelay (bytes "x!y@a b") (by decide)).ours.map (fun c =>
      (c.chan.bans 98).list.map Ban.text) = some [bytes "x!y@a b"] := by
    decide +kernel
  have htheirs : ((banRelay (bytes "x!y@a b") (by decide)).ours.bind fun c =>
      ((banRelay (bytes "x!y@a b") (by decide)).theirs c).map fun y =>
        (y.bans 98).list.map Ban.text) = some [bytes "x!y@a"] := by
    decide +kernel
  rw [hc, Option.map_some, Option.some.injEq] at hours
  rw [hc, Option.bind_some, hy, Option.map_some, Option.some.injEq] at htheirs
  have hbans := hsame 98 .ban rfl
  have hmem : bytes "x!y@a" ∈ (c.chan.bans 98).list.map Ban.text := by
    obtain ⟨b, hb, htext⟩ := List.mem_map.mp (show bytes "x!y@a" ∈ (y.bans 98).list.map Ban.text by
      rw [htheirs]
      exact List.mem_singleton_self _)
    exact List.mem_map.mpr ⟨b, (hbans b).mpr hb, htext⟩
  rw [hours] at hmem
  exact absurd hmem (by decide)

end Relay

end Ithildin
