import Ithildin.Lib.Census
import Ithildin.Lib.Log
import Ithildin.Socket.Moves
import Mathlib.Data.List.Count

/-!
# The books of the socket system

Over every run of the socket system, the descriptors that are open are those of the rest of the
server, those of the open sockets, and those that were lost: to a `bind()` that failed, and to a
dead socket that could not be closed. The count of `cursockets` is off by the connections whose
flags could not be set, which are taken from it but not added, and by the sockets that were dead and
open, which are added but not taken from it.
-/

namespace Ithildin

namespace Sockets

open Census

/-- The socket is open and has the descriptor. -/
def holds (n : ℕ) (c : ISocket) : Bool := c.isOpen && c.fd == some n

/-- The descriptors of the open sockets. -/
def Sys.openFds (s : Sys) : List ℕ :=
  s.allsockets.filterMap fun p => (s.mem p).bind fun c => if c.isOpen then c.fd else none

/-- The sockets are those of the list, the open ones have a descriptor, and every descriptor is
accounted for. -/
structure Books (s : Sys) (losses : List Loss) : Prop where
  nodup : s.allsockets.Nodup
  live : ∀ p, p ∈ s.allsockets ↔ (s.mem p).isSome
  fresh : ∀ p ∈ s.allsockets, p < s.next
  fd : ∀ p c, s.mem p = some c → c.isOpen = true → c.fd ≠ none
  kernelNodup : s.kernel.Nodup
  kernel : ∀ n, s.kernel.count n = s.others.count n + count (holds n) s.mem s.allsockets +
    (losses.filterMap Loss.fd).count n
  cursockets : (s.cursockets + losses.countP Loss.isUncounted) % 2 ^ 32 =
    (count (·.isOpen) s.mem s.allsockets + losses.countP Loss.isOrphan) % 2 ^ 32

namespace Books

variable {s s' : Sys} {losses : List Loss} {p : ℕ} {c c' : ISocket}

theorem mem_allsockets (h : Books s losses) (hc : s.mem p = some c) : p ∈ s.allsockets :=
  (h.live p).2 (hc ▸ rfl)

theorem start {others : List ℕ} (hothers : others.Nodup) (maxsockets : ℕ) :
    Books (start others maxsockets) [] where
  nodup := List.nodup_nil
  live p := by simp [Sockets.start]
  fresh p hp := by cases hp
  fd p c hc := by cases hc
  kernelNodup := hothers
  kernel n := by simp [Sockets.start]
  cursockets := rfl

/-! ### The moves -/

theorem createSocket (h : Books s losses) : Books s.createSocket.2 losses := by
  have hnew : s.next ∉ s.allsockets := fun hp => Nat.lt_irrefl _ (h.fresh _ hp)
  have hcount (f : ISocket → Bool) (hf : f .empty = false) :
      count f (Function.update s.mem s.next (some .empty)) (s.next :: s.allsockets) =
        count f s.mem s.allsockets := by
    rw [count, total_cons, Function.update_self, total_update_of_notMem hnew, unit_some, hf]
    exact Nat.zero_add _
  refine ⟨List.nodup_cons.2 ⟨hnew, h.nodup⟩, fun p => ?_, fun p hp => ?_, fun p c hc hopen => ?_,
    h.kernelNodup, fun n => ?_, ?_⟩
  · change p ∈ s.next :: s.allsockets ↔ (Function.update s.mem s.next (some .empty) p).isSome
    by_cases hp : p = s.next
    · simp [hp]
    · rw [Function.update_of_ne hp, List.mem_cons, or_iff_right hp, h.live]
  · rcases List.mem_cons.1 hp with rfl | hp
    · exact Nat.lt_succ_self _
    · exact Nat.lt_succ_of_lt (h.fresh p hp)
  · rcases update_eq_iff.1 hc with ⟨-, hc⟩ | ⟨-, hc⟩
    · rw [← Option.some.inj hc] at hopen
      cases hopen
    · exact h.fd p c hc hopen
  · exact (h.kernel n).trans (by rw [← hcount (holds n) rfl]; rfl)
  · exact h.cursockets.trans (by rw [← hcount (·.isOpen) rfl]; rfl)

/-- A record is written: what is counted is changed by it only. -/
theorem count_put (h : Books s losses) (hc : s.mem p = some c) (c' : ISocket)
    (f : ISocket → Bool) :
    count f (Function.update s.mem p (some c')) s.allsockets + (f c).toNat =
      count f s.mem s.allsockets + (f c').toNat := by
  have htotal : total (fun c => (f c).toNat) (Function.update s.mem p (some c')) s.allsockets + _ =
      _ := total_update h.nodup (h.mem_allsockets hc)
  rw [hc, unit_some, unit_some] at htotal
  exact htotal

/-- A socket is written, and the descriptors and the count are made to agree. -/
theorem put (h : Books s losses) (hc : s.mem p = some c)
    (hfd : c'.isOpen = true → c'.fd ≠ none) {kernel : List ℕ} {cursockets : ℕ}
    {more : List Loss} (hnodup : kernel.Nodup)
    (hkernel : ∀ n, kernel.count n + (holds n c).toNat =
      s.kernel.count n + (holds n c').toNat + (more.filterMap Loss.fd).count n)
    (hcur : (cursockets + more.countP Loss.isUncounted + c.isOpen.toNat) % 2 ^ 32 =
      (s.cursockets + more.countP Loss.isOrphan + c'.isOpen.toNat) % 2 ^ 32) :
    Books { s.put p c' with kernel := kernel, cursockets := cursockets } (losses ++ more) := by
  refine ⟨h.nodup, fun q => ?_, h.fresh, fun q c₁ hc₁ hopen₁ => ?_, hnodup, fun n => ?_, ?_⟩
  · have hsome : (Function.update s.mem p (some c') q).isSome = (s.mem q).isSome :=
      isSome_update (by rw [hc]; rfl) q
    exact (h.live q).trans (by rw [← hsome]; rfl)
  · rcases update_eq_iff.1 hc₁ with ⟨-, hc₁⟩ | ⟨-, hc₁⟩
    · obtain rfl := Option.some.inj hc₁
      exact hfd hopen₁
    · exact h.fd q c₁ hc₁ hopen₁
  · have hcount := h.count_put hc c' (holds n)
    have hbooks := h.kernel n
    have hmove := hkernel n
    rw [List.filterMap_append, List.count_append]
    simp only [Sys.put]
    omega
  · have hcount := h.count_put hc c' (·.isOpen)
    have hbooks := h.cursockets
    rw [List.countP_append, List.countP_append]
    simp only [Sys.put]
    omega

theorem moves {more : List Loss} (hmoves : Moves s more s') (h : Books s losses) :
    Books s' (losses ++ more) := by
  induction hmoves generalizing losses with
  | refl s =>
    rw [List.append_nil]
    exact h
  | @write s p c c' hc hopen hfd =>
    refine h.put hc (fun ho => ?_) h.kernelNodup (fun n => ?_) ?_
    · rw [hfd]
      exact h.fd p c hc (hopen.symm.trans ho)
    · rw [holds, holds, hopen, hfd]
      rfl
    · rw [hopen]
      rfl
  | @strand s p c c' hc hopen hopen' =>
    refine h.put hc (fun ho => ?_) h.kernelNodup (fun n => ?_) ?_
    · rw [hopen'] at ho
      cases ho
    · rw [holds, holds, hopen, hopen']
      rfl
    · rw [hopen, hopen']
      rfl
  | table =>
    rw [List.append_nil]
    exact ⟨h.nodup, h.live, h.fresh, h.fd, h.kernelNodup, h.kernel, h.cursockets⟩
  | create s =>
    rw [List.append_nil]
    exact h.createSocket
  | @lose s p c c' hc hopen hopen' =>
    refine h.put hc (fun ho => ?_) (List.nodup_cons.2 ⟨lowest_notMem _, h.kernelNodup⟩)
      (fun n => ?_) ?_
    · rw [hopen'] at ho
      cases ho
    · rw [holds, holds, hopen, hopen', List.count_cons, List.filterMap_cons]
      simp [Loss.fd, List.count_singleton]
    · rw [hopen, hopen']
      rfl
  | @hold s p c c' hc hopen hroom hopen' hfd =>
    refine h.put hc (fun _ => ?_) (List.nodup_cons.2 ⟨lowest_notMem _, h.kernelNodup⟩)
      (fun n => ?_) ?_
    · rw [hfd]
      exact Option.some_ne_none _
    · rw [holds, holds, hopen, hopen', hfd, List.count_cons]
      by_cases hn : lowest s.kernel = n <;> simp [hn]
    · rw [hopen, hopen']
      simp
  | @slip s p c c' hc hopen hopen' hfd =>
    refine h.put hc (fun _ => ?_) (List.nodup_cons.2 ⟨lowest_notMem _, h.kernelNodup⟩)
      (fun n => ?_) ?_
    · rw [hfd]
      exact Option.some_ne_none _
    · rw [holds, holds, hopen, hopen', hfd, List.count_cons]
      by_cases hn : lowest s.kernel = n <;> simp [hn, Loss.fd, List.filterMap_cons]
    · rw [hopen, hopen']
      rfl
  | @release s p c c' n hc hopen hfd hopen' =>
    refine h.put hc (fun ho => ?_) (h.kernelNodup.erase n) (fun m => ?_) ?_
    · rw [hopen'] at ho
      cases ho
    · have hin : n ∈ s.kernel := by
        have hone : 0 < count (holds n) s.mem s.allsockets := by
          have hcount := h.count_put hc c' (holds n)
          have hheld : holds n c = true := by simp [holds, hopen, hfd]
          have hnot : holds n c' = false := by simp [holds, hopen']
          rw [hheld, hnot, Bool.toNat_true, Bool.toNat_false] at hcount
          omega
        have hkernel := h.kernel n
        exact List.count_pos_iff.1 (by omega)
      have hpos := List.count_pos_iff.2 hin
      rw [holds, holds, hopen, hopen', hfd, List.count_erase]
      by_cases hm : n = m
      · subst hm
        simp
        omega
      · simp [hm]
    · rw [hopen, hopen']
      simp only [Bool.toNat_true, Bool.toNat_false, List.countP_nil]
      omega
  | trans hmoves hmoves' ih ih' =>
    rw [← List.append_assoc]
    exact ih' (ih h)

/-! ### Sockets that are freed -/

/-- A socket is freed; if it is open, its descriptor is lost. -/
theorem free (h : Books s losses) (hc : s.mem p = some c) :
    Books { s with mem := Function.update s.mem p none, allsockets := s.allsockets.erase p }
      (losses ++ ((if c.isOpen then c.fd else none).map Loss.orphan).toList) := by
  have hp := h.mem_allsockets hc
  have hcount (f : ISocket → Bool) :
      count f (Function.update s.mem p none) (s.allsockets.erase p) + (f c).toNat =
        count f s.mem s.allsockets := by
    have herase : total (fun c => (f c).toNat) s.mem (s.allsockets.erase p) + _ = _ :=
      total_erase hp
    rw [hc, unit_some] at herase
    have hupdate : total (fun c => (f c).toNat) (Function.update s.mem p none) _ = _ :=
      total_update_of_notMem h.nodup.not_mem_erase
    rw [count, hupdate]
    exact herase
  refine ⟨h.nodup.erase p, fun q => ?_, fun q hq => h.fresh q (List.mem_of_mem_erase hq),
    fun q c₁ hc₁ hopen₁ => ?_, h.kernelNodup, fun n => ?_, ?_⟩
  · dsimp only
    rw [h.nodup.mem_erase_iff]
    by_cases hq : q = p
    · simp [hq]
    · rw [Function.update_of_ne hq, h.live, and_iff_right hq]
  · rcases update_eq_iff.1 hc₁ with ⟨-, hc₁⟩ | ⟨-, hc₁⟩
    · cases hc₁
    · exact h.fd q c₁ hc₁ hopen₁
  · have hholds := hcount (holds n)
    have hkernel := h.kernel n
    cases hopen : c.isOpen with
    | false =>
      simp only [holds, hopen, Bool.false_and, Bool.toNat_false, Nat.add_zero] at hholds
      simp only [Bool.false_eq_true, if_false, Option.map_none, Option.toList_none,
        List.append_nil]
      rw [hkernel, ← hholds]
    | true =>
      obtain ⟨m, hm⟩ := Option.ne_none_iff_exists'.1 (h.fd p c hc hopen)
      have hone : (holds n c).toNat = if m = n then 1 else 0 := by
        by_cases hn : m = n <;> simp [holds, hopen, hm, hn]
      rw [hone] at hholds
      simp only [if_true, hm, Option.map_some, Option.toList_some, List.filterMap_append,
        List.filterMap_cons, Loss.fd, List.filterMap_nil, List.count_append, List.count_singleton,
        beq_iff_eq]
      omega
  · have hopens := hcount (·.isOpen)
    have hbooks := h.cursockets
    cases hopen : c.isOpen with
    | false =>
      simp only [hopen, Bool.toNat_false, Nat.add_zero] at hopens
      simp only [Bool.false_eq_true, if_false, Option.map_none, Option.toList_none,
        List.append_nil]
      rw [hbooks, ← hopens]
    | true =>
      obtain ⟨m, hm⟩ := Option.ne_none_iff_exists'.1 (h.fd p c hc hopen)
      rw [hopen] at hopens
      simp only [if_true, hm, Option.map_some, Option.toList_some, List.countP_append,
        List.countP_singleton, Loss.isOrphan, Loss.isUncounted, Bool.toNat_true,
        Bool.false_eq_true, if_false] at hopens ⊢
      omega

theorem orphans_congr {mem mem' : ℕ → Option ISocket} {l : List ℕ}
    (h : ∀ p ∈ l, mem' p = mem p) : orphans mem' l = orphans mem l := by
  induction l with
  | nil => rfl
  | cons p l ih =>
    obtain ⟨hp, hl⟩ := List.forall_mem_cons.1 h
    rw [orphans, orphans, hp, ih hl]

theorem orphans_cons {mem : ℕ → Option ISocket} {l : List ℕ} (hc : mem p = some c) :
    orphans mem (p :: l) =
      (if c.dead then ((if c.isOpen then c.fd else none).map Loss.orphan).toList else []) ++
        orphans mem l := by
  rw [orphans, hc, Option.bind_some]
  cases c.dead <;> cases c.isOpen <;> cases c.fd <;> rfl

theorem reapFrom (l : List ℕ) (h : Books s losses) (hnodup : l.Nodup)
    (hreap : Sys.reapFrom l s = some s') : Books s' (losses ++ orphans s.mem l) := by
  induction l generalizing s losses with
  | nil =>
    obtain rfl := Option.some.inj hreap
    rw [orphans, List.append_nil]
    exact h
  | cons p l ih =>
    obtain ⟨hnot, hnodup⟩ := List.nodup_cons.1 hnodup
    simp only [Sys.reapFrom, Option.bind_eq_bind, Option.bind_eq_some_iff] at hreap
    obtain ⟨c, hc, hreap⟩ := hreap
    rw [orphans_cons hc]
    split_ifs at hreap with hdead hfreed
    · rw [if_neg (by simpa using hdead), List.nil_append]
      exact ih h hnodup hreap
    · rw [if_pos (by simpa using hdead), ← List.append_assoc]
      have hrest : orphans (Function.update s.mem p none) l = orphans s.mem l :=
        orphans_congr fun q hq => Function.update_of_ne (ne_of_mem_of_not_mem hq hnot) _ _
      rw [← hrest]
      exact ih (h.free hc) hnodup hreap

/-! ### The steps -/

/-- The phase, the limit and the table are not in the books. -/
theorem setPhase (h : Books s losses) (phase : Phase) : Books { s with phase := phase } losses :=
  ⟨h.nodup, h.live, h.fresh, h.fd, h.kernelNodup, h.kernel, h.cursockets⟩

theorem setTable (h : Books s losses) (maxsockets : ℕ) (pollfds : List PollFd) :
    Books { s with maxsockets := maxsockets, pollfds := pollfds } losses :=
  ⟨h.nodup, h.live, h.fresh, h.fd, h.kernelNodup, h.kernel, h.cursockets⟩

theorem goto (h : Books s losses) (sp : Option ℕ) : Books (s.goto sp) losses := by
  cases sp <;> exact h.setPhase _

theorem adjustMaxsockets (h : Books s losses) (l : Option ℤ) :
    Books (s.adjustMaxsockets l) losses := by
  rw [Sys.adjustMaxsockets]
  dsimp only
  split_ifs
  · exact h
  · exact h.setTable _ _
  · exact h.setTable _ _

theorem pollSockets (h : Books s losses) (answer : ℕ → Revents) :
    Books (s.pollSockets answer) losses := by
  have hpolled : Books { s with pollfds := s.polled answer } losses := h.setTable _ _
  rw [Sys.pollSockets]
  split_ifs
  · exact hpolled.goto _
  · exact hpolled

theorem step (h : Books s losses) {a : Act} (hstep : step s a = some s') :
    Books s' (losses ++ loss s a) := by
  have hnothing (hnone : loss s a = []) (hbooks : Books s' losses) :
      Books s' (losses ++ loss s a) := by
    rw [hnone, List.append_nil]
    exact hbooks
  cases a with
  | call c => exact h.moves (call_moves hstep)
  | adjust l =>
    obtain rfl := Option.some.inj hstep
    exact hnothing rfl (h.adjustMaxsockets l)
  | otherOpen =>
    obtain rfl := Option.some.inj hstep
    refine hnothing rfl ?_
    refine ⟨h.nodup, h.live, h.fresh, h.fd,
      List.nodup_cons.2 ⟨lowest_notMem _, h.kernelNodup⟩, fun n => ?_, h.cursockets⟩
    have hkernel := h.kernel n
    simp only [List.count_cons]
    omega
  | otherClose n =>
    obtain rfl := Option.some.inj hstep
    refine hnothing rfl ?_
    split_ifs with hn
    · refine ⟨h.nodup, h.live, h.fresh, h.fd, h.kernelNodup.erase n, fun m => ?_, h.cursockets⟩
      have hkernel := h.kernel m
      have hpos := List.count_pos_iff.2 hn
      simp only [List.count_erase, beq_iff_eq]
      split_ifs with hm
      · subst hm
        omega
      · exact hkernel
    · exact h
  | poll answer =>
    obtain rfl := Option.some.inj hstep
    refine hnothing rfl ?_
    split_ifs
    · exact h.pollSockets answer
    · exact h
  | visit errno =>
    rw [Sockets.step] at hstep
    refine hnothing rfl ?_
    split at hstep
    · obtain ⟨s₁, hmoves, hs'⟩ := visit_moves hstep
      have hbooks := h.moves hmoves
      rw [List.append_nil] at hbooks
      rcases hs' with rfl | rfl
      · exact hbooks.setPhase _
      · split_ifs
        · exact hbooks.setPhase _
        · exact hbooks.goto _
    · obtain rfl := Option.some.inj hstep
      exact h
  | done =>
    rw [Sockets.step] at hstep
    refine hnothing rfl ?_
    split at hstep
    · obtain ⟨s₁, hmoves, rfl⟩ := finish_moves hstep
      have hbooks := h.moves hmoves
      rw [List.append_nil] at hbooks
      exact hbooks.goto _
    · obtain rfl := Option.some.inj hstep
      exact h
  | reap =>
    rw [Sockets.step] at hstep
    rw [loss]
    split_ifs at hstep ⊢
    · exact h.reapFrom s.allsockets h.nodup hstep
    · obtain rfl := Option.some.inj hstep
      rw [List.append_nil]
      exact h

/-! ### Runs -/

/-- The descriptors of the open sockets, counted. -/
theorem count_openFds (n : ℕ) : s.openFds.count n = count (holds n) s.mem s.allsockets := by
  rw [Sys.openFds]
  induction s.allsockets with
  | nil => rfl
  | cons p l ih =>
    rw [count, total_cons, ← count, ← ih, List.filterMap_cons]
    cases s.mem p with
    | none => simp
    | some c =>
      rw [Option.bind_some, unit_some, holds]
      cases c.isOpen with
      | false => simp
      | true =>
        cases c.fd with
        | none => simp
        | some m => by_cases hm : m = n <;> simp [hm, Nat.add_comm]

theorem length_openFds (h : Books s losses) :
    s.openFds.length = count (·.isOpen) s.mem s.allsockets := by
  rw [Sys.openFds]
  induction s.allsockets with
  | nil => rfl
  | cons p l ih =>
    rw [count, total_cons, ← count, ← ih, List.filterMap_cons]
    cases hc : s.mem p with
    | none => simp
    | some c =>
      rw [Option.bind_some, unit_some]
      cases hopen : c.isOpen with
      | false => simp
      | true =>
        obtain ⟨m, hm⟩ := Option.ne_none_iff_exists'.1 (h.fd p c hc hopen)
        simp [hm, Nat.add_comm]

end Books

theorem run_books_of_nodup {others : List ℕ} (hothers : others.Nodup) {maxsockets : ℕ}
    {as : List Act} {s : Sys} (hrun : Run.run step (start others maxsockets) as = some s) :
    Books s (Run.log step loss (start others maxsockets) as) :=
  Run.run_log (fun _ _ _ _ _ h hstep => h.step hstep) (Books.start hothers maxsockets) hrun

/-- Over every run, an open descriptor belongs to the rest of the server or to one open socket, or
was lost by a step of the run; and the count is that of the open sockets but for what was lost. -/
theorem descriptors_accounted {others : List ℕ} (hothers : others.Nodup) {maxsockets : ℕ}
    {as : List Act} {s : Sys} (hrun : Run.run step (start others maxsockets) as = some s) :
    let losses := Run.log step loss (start others maxsockets) as
    s.kernel.Nodup ∧ s.kernel.Perm (s.others ++ s.openFds ++ losses.filterMap Loss.fd) ∧
    (s.cursockets + losses.countP Loss.isUncounted) % 2 ^ 32 =
      (s.openFds.length + losses.countP Loss.isOrphan) % 2 ^ 32 := by
  intro losses
  have hbooks := run_books_of_nodup hothers hrun
  refine ⟨hbooks.kernelNodup, List.perm_iff_count.2 fun n => ?_, ?_⟩
  · rw [hbooks.kernel, List.count_append, List.count_append, Books.count_openFds]
  · rw [hbooks.cursockets, hbooks.length_openFds]

/-- A listener, a connection whose flags cannot be set, and a socket that cannot be bound. -/
theorem descriptors_accounted_example :
    let as : List Act := [.call .createSocket, .call (.setLocalAddress 0 none),
      .call (.openSocket 0 none none none), .call (.socketListen 0 none),
      .call (.socketAccept 0 none (some 22) none none), .call .createSocket,
      .call (.setLocalAddress 2 none), .call (.openSocket 2 none none (some 98))]
    ∃ s, Run.run step (start [0, 1, 2] 8) as = some s ∧
      let losses := Run.log step loss (start [0, 1, 2] 8) as
      s.kernel.Nodup ∧ s.kernel.Perm (s.others ++ s.openFds ++ losses.filterMap Loss.fd) ∧
      (s.cursockets + losses.countP Loss.isUncounted) % 2 ^ 32 =
        (s.openFds.length + losses.countP Loss.isOrphan) % 2 ^ 32 := by
  intro as
  obtain ⟨s, hs⟩ := Option.isSome_iff_exists.1
    (show (Run.run step (start [0, 1, 2] 8) as).isSome = true from rfl)
  exact ⟨s, hs, descriptors_accounted (by decide) hs⟩

end Sockets

end Ithildin
