import Ithildin.Timer.Timers
import Mathlib.Data.List.Perm.Subperm
import Mathlib.Data.List.Nodup

/-!
# Timers whose callbacks change the list

`exec_timers` remembers the next timer while a callback runs. `Held` is what keeps its walk safe
then: the timer that runs and the next one are on the list, and what is due is ahead of the walk. A
callback keeps it if it destroys neither of the two and puts no due timer out of the walk's way
(`safe_of_run`).

The walk makes no more calls than there were timers, and timers put on the list to be due before it
is over.
-/

namespace Ithildin

namespace Timers

variable {q : Queue} {t u : Timer} {ref k : ℕ}

/-! ### The list -/

/-- What the functions keep of the list. -/
structure Listed (q : Queue) : Prop where
  ordered : Agenda.Ordered (·.next) q.timers
  keys : (q.timers.map (·.key)).Nodup
  refs : (q.timers.map (·.ref)).Nodup
  lt : ∀ t ∈ q.timers, t.key < q.keys
  refcnt : q.rollover = false → q.refcnt < 2 ^ 64 ∧ ∀ t ∈ q.timers, t.ref < q.refcnt

theorem listed_empty (now : ℤ) : Listed (Queue.empty now) where
  ordered := List.Pairwise.nil
  keys := List.nodup_nil
  refs := List.nodup_nil
  lt := by simp [Queue.empty]
  refcnt := by simp [Queue.empty]

theorem mem_removeTimer {timers : List Timer} :
    u ∈ removeTimer k timers ↔ u ∈ timers ∧ u.key ≠ k := by
  simp [removeTimer, List.mem_filter]

theorem perm_insertTimer (t : Timer) (timers : List Timer) :
    (insertTimer t timers).Perm (t :: timers) :=
  Agenda.perm_insert t timers

theorem mem_insertTimer {timers : List Timer} : u ∈ insertTimer t timers ↔ u = t ∨ u ∈ timers :=
  Agenda.mem_insert

theorem findTimer_eq_some {timers : List Timer} (h : findTimer ref timers = some t) :
    t ∈ timers ∧ t.ref = ref :=
  ⟨List.mem_of_find?_eq_some h, by simpa using List.find?_some h⟩

theorem findTimer_isSome {timers : List Timer} :
    (findTimer ref timers).isSome ↔ ref ∈ timers.map (·.ref) := by
  simp [findTimer, List.find?_isSome]

/-- A reference names one timer. -/
theorem Listed.findTimer (hq : Listed q) (ht : t ∈ q.timers) :
    findTimer t.ref q.timers = some t := by
  obtain ⟨u, hu⟩ := Option.isSome_iff_exists.1
    (findTimer_isSome.2 (List.mem_map_of_mem (f := (·.ref)) ht))
  obtain ⟨humem, href⟩ := findTimer_eq_some hu
  rw [hu, List.inj_on_of_nodup_map hq.refs humem ht href]

/-- A number of an allocation names one timer. -/
theorem Listed.find_key (hq : Listed q) (ht : t ∈ q.timers) :
    q.timers.find? (·.key = t.key) = some t := by
  obtain ⟨u, hu⟩ := Option.isSome_iff_exists.1
    (List.find?_isSome (p := fun u : Timer => u.key = t.key).2 ⟨t, ht, decide_eq_true rfl⟩)
  have hkey : u.key = t.key := by simpa using List.find?_some hu
  rw [hu, List.inj_on_of_nodup_map hq.keys (List.mem_of_find?_eq_some hu) ht hkey]

theorem Listed.removed (hq : Listed q) (k : ℕ) :
    Listed { q with timers := removeTimer k q.timers } where
  ordered := hq.ordered.filter _
  keys := hq.keys.sublist (List.filter_sublist.map _)
  refs := hq.refs.sublist (List.filter_sublist.map _)
  lt := fun u hu => hq.lt u (mem_removeTimer.1 hu).1
  refcnt := fun h => ⟨(hq.refcnt h).1, fun u hu => (hq.refcnt h).2 u (mem_removeTimer.1 hu).1⟩

theorem Listed.destroyTimer (hq : Listed q) (ref : ℕ) : Listed (q.destroyTimer ref) := by
  rw [Queue.destroyTimer]
  split
  · exact hq
  · exact hq.removed _

/-- A timer is put back elsewhere, with its own numbers. -/
theorem Listed.moved (hq : Listed q) (ht : t ∈ q.timers) (hkey : u.key = t.key)
    (href : u.ref = t.ref) :
    Listed { q with timers := insertTimer u (removeTimer t.key q.timers) } := by
  have hrem := hq.removed t.key
  have hperm := perm_insertTimer u (removeTimer t.key q.timers)
  refine ⟨hrem.ordered.insert u, ?_, ?_, ?_, ?_⟩
  · refine (hperm.map _).nodup_iff.2 (List.nodup_cons.2 ⟨fun hin => ?_, hrem.keys⟩)
    obtain ⟨v, hv, hvk⟩ := List.mem_map.1 hin
    exact (mem_removeTimer.1 hv).2 (hvk.trans hkey)
  · refine (hperm.map _).nodup_iff.2 (List.nodup_cons.2 ⟨fun hin => ?_, hrem.refs⟩)
    obtain ⟨v, hv, hvr⟩ := List.mem_map.1 hin
    obtain ⟨hvmem, hvk⟩ := mem_removeTimer.1 hv
    exact hvk (congrArg Timer.key
      (List.inj_on_of_nodup_map hq.refs hvmem ht (hvr.trans href)))
  · rintro v hv
    rcases mem_insertTimer.1 hv with rfl | hv
    · exact hkey ▸ hq.lt t ht
    · exact hrem.lt v hv
  · intro hroll
    refine ⟨(hq.refcnt hroll).1, fun v hv => ?_⟩
    rcases mem_insertTimer.1 hv with rfl | hv
    · exact href ▸ (hq.refcnt hroll).2 t ht
    · exact (hrem.refcnt hroll).2 v hv

theorem Listed.adjustTimer (hq : Listed q) (ref : ℕ) (reps interval : ℤ) :
    Listed (q.adjustTimer ref reps interval) := by
  rw [Queue.adjustTimer]
  split
  · exact hq
  · rename_i t hfind
    exact hq.moved (findTimer_eq_some hfind).1 rfl rfl

theorem Listed.afterwards (hq : Listed q) (ht : t ∈ q.timers) : Listed (q.afterwards t) := by
  rw [Queue.afterwards]
  split
  · exact hq.destroyTimer t.ref
  · exact hq.moved ht rfl rfl

/-! ### New timers -/

theorem unusedRef_notMem {timers : List Timer} {n r : ℕ} (h : unusedRef timers n ref = some r) :
    r ∉ timers.map (·.ref) := by
  induction n generalizing ref with
  | zero => cases h
  | succ n ih =>
    rw [unusedRef] at h
    split at h
    · exact ih h
    · rename_i hfind
      cases h
      exact fun hin => hfind (findTimer_isSome.2 hin)

theorem mem_refs_of_unusedRef {timers : List Timer} {n : ℕ}
    (h : unusedRef timers n (ref % 2 ^ 64) = none) :
    ∀ i < n, (ref + i) % 2 ^ 64 ∈ timers.map (·.ref) := by
  induction n generalizing ref with
  | zero => exact fun i hi => absurd hi (Nat.not_lt_zero i)
  | succ n ih =>
    rw [unusedRef] at h
    split at h
    · rename_i hfind
      rintro (_ | i) hi
      · exact findTimer_isSome.1 hfind
      · have hrest := @ih (ref + 1) (by rwa [Nat.mod_add_mod] at h) i (Nat.lt_of_succ_lt_succ hi)
        rwa [Nat.add_right_comm] at hrest
    · cases h

/-- The search for a reference ends: there are not so many timers. -/
theorem unusedRef_isSome {timers : List Timer} (h : timers.length < 2 ^ 64) :
    (unusedRef timers (timers.length + 1) (ref % 2 ^ 64)).isSome := by
  rw [Option.isSome_iff_ne_none]
  intro hnone
  have hmem := mem_refs_of_unusedRef hnone
  have hnd : ((List.range (timers.length + 1)).map fun i => (ref + i) % 2 ^ 64).Nodup := by
    refine List.Nodup.map_on (fun i hi j hj heq => ?_) List.nodup_range
    rw [List.mem_range] at hi hj
    omega
  have hsub : ((List.range (timers.length + 1)).map fun i => (ref + i) % 2 ^ 64) ⊆
      timers.map (·.ref) := by
    rintro r hr
    obtain ⟨i, hi, rfl⟩ := List.mem_map.1 hr
    exact hmem i (List.mem_range.1 hi)
  have hle := (hnd.subperm hsub).length_le
  simp only [List.length_map, List.length_range] at hle
  omega

/-- A new timer has a reference that no timer has. -/
theorem Listed.newRef (hq : Listed q) {refcnt : ℕ} {rollover : Bool}
    (h : q.newRef = some (ref, refcnt, rollover)) :
    ref ∉ q.timers.map (·.ref) ∧
      (rollover = false → refcnt < 2 ^ 64 ∧ ref < refcnt ∧ ∀ t ∈ q.timers, t.ref < refcnt) := by
  rw [Queue.newRef] at h
  split at h
  · obtain ⟨r, hr, h⟩ := Option.map_eq_some_iff.1 h
    cases h
    exact ⟨unusedRef_notMem hr, by simp⟩
  · rename_i hroll
    obtain ⟨hlt, hrefs⟩ := hq.refcnt (eq_false_of_ne_true hroll)
    split at h
    · obtain ⟨r, hr, h⟩ := Option.map_eq_some_iff.1 h
      cases h
      exact ⟨unusedRef_notMem hr, by simp⟩
    · rename_i hinvalid
      rw [timerInvalid] at hinvalid
      have hsucc : (q.refcnt + 1) % 2 ^ 64 = q.refcnt + 1 := Nat.mod_eq_of_lt (by omega)
      cases h
      refine ⟨fun hin => ?_, fun _ => ?_⟩
      · obtain ⟨t, ht, htr⟩ := List.mem_map.1 hin
        exact absurd (hrefs t ht) (by omega)
      · rw [hsucc]
        exact ⟨by omega, Nat.lt_succ_self _, fun t ht => (hrefs t ht).trans (Nat.lt_succ_self _)⟩

/-- What `create_timer` leaves. -/
theorem createTimer_eq_some {q' : Queue} {rep interval : ℤ} {callback udata : ℕ}
    (h : q.createTimer rep interval callback udata = some (q', ref)) :
    ∃ t refcnt rollover, q.newRef = some (ref, refcnt, rollover) ∧ t.key = q.keys ∧ t.ref = ref ∧
      t.next = q.now + interval ∧ t.udata = udata ∧
      q' = { q with
        timers := insertTimer t q.timers, refcnt := refcnt, rollover := rollover,
        keys := q.keys + 1 } := by
  obtain ⟨⟨r, refcnt, rollover⟩, hnew, h⟩ := Option.map_eq_some_iff.1 h
  cases h
  exact ⟨_, refcnt, rollover, hnew, rfl, rfl, rfl, rfl, rfl⟩

theorem Listed.created (hq : Listed q) {refcnt : ℕ} {rollover : Bool}
    (hnew : q.newRef = some (ref, refcnt, rollover)) (hkey : t.key = q.keys) (href : t.ref = ref) :
    Listed { q with
      timers := insertTimer t q.timers, refcnt := refcnt, rollover := rollover,
      keys := q.keys + 1 } := by
  obtain ⟨hfresh, hroll⟩ := hq.newRef hnew
  have hperm := perm_insertTimer t q.timers
  refine ⟨hq.ordered.insert t, ?_, ?_, ?_, ?_⟩
  · refine (hperm.map _).nodup_iff.2 (List.nodup_cons.2 ⟨fun hin => ?_, hq.keys⟩)
    obtain ⟨v, hv, hvk⟩ := List.mem_map.1 hin
    exact (hq.lt v hv).ne (hvk.trans hkey)
  · refine (hperm.map _).nodup_iff.2 (List.nodup_cons.2 ⟨?_, hq.refs⟩)
    show t.ref ∉ _
    rw [href]
    exact hfresh
  · rintro v hv
    rcases mem_insertTimer.1 hv with rfl | hv
    · exact hkey ▸ Nat.lt_succ_self _
    · exact (hq.lt v hv).trans (Nat.lt_succ_self _)
  · intro h
    obtain ⟨hlt, hr, hrefs⟩ := hroll h
    refine ⟨hlt, fun v hv => ?_⟩
    rcases mem_insertTimer.1 hv with rfl | hv
    · exact href ▸ hr
    · exact hrefs v hv

/-! ### What is ahead of the walk -/

variable {timers : List Timer} {now : ℤ} {due : List ℕ} {tep c : Option ℕ}

/-- A walk has come to the timer `c` (to the end if there is none), with the callback of `tep`
running: `c` is on the list, and what is due is ahead. -/
structure Walking (timers : List Timer) (now : ℤ) (due : List ℕ) (tep c : Option ℕ) : Prop where
  there : ∀ k ∈ c, k ∈ timers.map (·.key)
  other : ∀ k ∈ c, tep ≠ some k
  idle : ∀ k ∈ due, tep ≠ some k
  due : ∀ k ∈ due, ∃ t ∈ timers, t.key = k ∧ t.next ≤ now ∧
    ∃ c' ∈ c, t ∈ Agenda.ahead (·.key) c' timers

theorem notMem_removeTimer (k : ℕ) (timers : List Timer) :
    k ∉ (removeTimer k timers).map (·.key) := by
  rintro hin
  obtain ⟨t, ht, htk⟩ := List.mem_map.1 hin
  exact (mem_removeTimer.1 ht).2 htk

theorem Walking.insert (hw : Walking timers now due tep c) (hnew : t.key ∉ timers.map (·.key)) :
    Walking (insertTimer t timers) now due tep c where
  there := by
    rintro k hk
    obtain ⟨u, hu, huk⟩ := List.mem_map.1 (hw.there k hk)
    exact List.mem_map.2 ⟨u, mem_insertTimer.2 (Or.inr hu), huk⟩
  other := hw.other
  idle := hw.idle
  due := by
    rintro k hk
    obtain ⟨u, hu, huk, hnext, c', hc', hahead⟩ := hw.due k hk
    have hne : t.key ≠ c' := fun heq => hnew (heq ▸ hw.there c' hc')
    exact ⟨u, mem_insertTimer.2 (Or.inr hu), huk, hnext, c', hc',
      Agenda.mem_ahead_insert hne hahead⟩

/-- A timer is taken off the list that the walk has not come to. -/
theorem Walking.remove (hw : Walking timers now due tep c) (hk : c ≠ some k) :
    Walking (removeTimer k timers) now (due.filter (· ≠ k)) tep c where
  there := by
    rintro k' hk'
    obtain ⟨u, hu, rfl⟩ := List.mem_map.1 (hw.there k' hk')
    exact List.mem_map_of_mem (mem_removeTimer.2 ⟨hu, fun heq => hk (heq ▸ hk')⟩)
  other := hw.other
  idle := fun k' hk' => hw.idle k' (List.mem_of_mem_filter hk')
  due := by
    rintro k' hk'
    obtain ⟨hk', hne⟩ := List.mem_filter.1 hk'
    have hne : k' ≠ k := by simpa using hne
    obtain ⟨u, hu, rfl, hnext, c', hc', hahead⟩ := hw.due k' hk'
    refine ⟨u, mem_removeTimer.2 ⟨hu, hne⟩, rfl, hnext, c', hc', ?_⟩
    refine Agenda.mem_ahead_filter ?_ hahead (by simpa using hne)
    rintro v - rfl
    exact decide_eq_true fun heq => hk (heq ▸ hc')

/-- A timer is put elsewhere. If it is due it must stay so, and ahead; if the walk has come to it
nothing that is due may get in front. -/
theorem Walking.moved (hw : Walking timers now due tep c)
    (hord : Agenda.Ordered (·.next) timers) (hnd : (timers.map (·.key)).Nodup)
    (hkey : u.key = t.key)
    (hdue : t.key ∈ due → u.next ≤ now ∧
      (c ≠ some t.key → ∃ v ∈ timers, c = some v.key ∧ v.next ≤ u.next))
    (hcur : c = some t.key → ∀ v ∈ timers, v.key ∈ due → v.key ≠ t.key → u.next < v.next) :
    Walking (insertTimer u (removeTimer t.key timers)) now due tep c := by
  have hnew : u.key ∉ (removeTimer t.key timers).map (·.key) := hkey ▸ notMem_removeTimer _ _
  have hself : u ∈ insertTimer u (removeTimer t.key timers) := mem_insertTimer.2 (Or.inl rfl)
  have hndu : ((insertTimer u (removeTimer t.key timers)).map (·.key)).Nodup := by
    refine ((perm_insertTimer _ _).map _).nodup_iff.2 (List.nodup_cons.2 ⟨hnew, ?_⟩)
    exact hnd.sublist (List.filter_sublist.map _)
  by_cases hc : c = some t.key
  · refine ⟨?_, hw.other, hw.idle, ?_⟩
    · rintro k hk
      obtain rfl := Option.some.inj (hc.symm.trans hk)
      exact List.mem_map.2 ⟨u, hself, hkey⟩
    · rintro k hk
      by_cases hkt : k = t.key
      · refine ⟨u, hself, hkey.trans hkt.symm, (hdue (hkt ▸ hk)).1, u.key, hkey ▸ hc, ?_⟩
        exact Agenda.mem_ahead_self hself hndu
      · obtain ⟨v, hv, rfl, hnext, -⟩ := hw.due k hk
        have hmem : v ∈ removeTimer t.key timers := mem_removeTimer.2 ⟨hv, hkt⟩
        refine ⟨v, mem_insertTimer.2 (Or.inr hmem), rfl, hnext, u.key, hkey ▸ hc, ?_⟩
        exact Agenda.mem_ahead_insert_self hnew hmem
          (hcur hc v hv hk hkt)
  · have hw' := (hw.remove hc).insert hnew
    refine ⟨hw'.there, hw.other, hw.idle, fun k hk => ?_⟩
    by_cases hkt : k = t.key
    · obtain ⟨hnext, hahead⟩ := hdue (hkt ▸ hk)
      obtain ⟨v, hv, hcv, hle⟩ := hahead hc
      refine ⟨u, hself, hkey.trans hkt.symm, hnext, v.key, hcv, ?_⟩
      refine Agenda.self_mem_ahead_insert (hord.filter _) ?_ hle
      exact mem_removeTimer.2 ⟨hv, fun heq => hc (heq ▸ hcv)⟩
    · exact hw'.due k (List.mem_filter.2 ⟨hk, by simpa using hkt⟩)

theorem Walking.clock (hw : Walking timers now due tep c) {now' : ℤ}
    (h : ∀ t ∈ timers, t.key ∈ due → t.next ≤ now') : Walking timers now' due tep c where
  there := hw.there
  other := hw.other
  idle := hw.idle
  due := by
    rintro k hk
    obtain ⟨t, ht, rfl, -, hahead⟩ := hw.due k hk
    exact ⟨t, ht, rfl, h t ht hk, hahead⟩

theorem Walking.stopped (hw : Walking timers now due tep c) : Walking timers now due none c where
  there := hw.there
  other := by simp
  idle := by simp
  due := hw.due

/-! ### How many calls there are -/

/-- How many timers other than the one that runs come due by the time `T`. -/
def waiting (T : ℤ) (tep : Option ℕ) (timers : List Timer) : ℕ :=
  timers.countP fun t => tep ≠ some t.key ∧ t.next ≤ T

variable {T : ℤ}

theorem waiting_insert (t : Timer) (timers : List Timer) :
    waiting T tep (insertTimer t timers) =
      waiting T tep timers + if tep ≠ some t.key ∧ t.next ≤ T then 1 else 0 := by
  rw [waiting, (perm_insertTimer t timers).countP_eq, List.countP_cons, waiting]
  simp

theorem waiting_insert_le (t : Timer) (timers : List Timer) :
    waiting T tep (insertTimer t timers) ≤
      waiting T tep timers + if t.next ≤ T then 1 else 0 := by
  rw [waiting_insert]
  split_ifs <;> simp_all

theorem waiting_remove_le (k : ℕ) : waiting T tep (removeTimer k timers) ≤ waiting T tep timers :=
  List.filter_sublist.countP_le

/-- Once it is off the list it does not matter which timer runs. -/
theorem waiting_none_remove (k : ℕ) :
    waiting T none (removeTimer k timers) = waiting T (some k) timers := by
  rw [waiting, waiting, removeTimer, List.countP_filter]
  refine List.countP_congr fun t _ => ?_
  simp only [Bool.and_eq_true, decide_eq_true_eq, ne_eq, Option.some.injEq, reduceCtorEq,
    not_false_eq_true, true_and]
  rw [and_comm, @eq_comm _ k]

theorem perm_removeTimer (ht : t ∈ timers) (hnd : (timers.map (·.key)).Nodup) :
    timers.Perm (t :: removeTimer t.key timers) := by
  induction timers with
  | nil => cases ht
  | cons b timers ih =>
    rw [List.map_cons, List.nodup_cons] at hnd
    rcases List.mem_cons.1 ht with rfl | ht
    · have hkeep : removeTimer t.key (t :: timers) = timers := by
        rw [removeTimer, List.filter_cons_of_neg (by simp), List.filter_eq_self]
        intro u hu
        exact decide_eq_true fun heq => hnd.1 (heq ▸ List.mem_map_of_mem hu)
      rw [hkeep]
    · have hne : b.key ≠ t.key := fun heq => hnd.1 (heq ▸ List.mem_map_of_mem ht)
      have hkeep : removeTimer t.key (b :: timers) = b :: removeTimer t.key timers := by
        rw [removeTimer, List.filter_cons_of_pos (by simpa using hne), removeTimer]
      rw [hkeep]
      exact ((ih ht hnd.2).cons b).trans (List.Perm.swap t b _)

/-- The timer that runs was one that came due. -/
theorem waiting_none (ht : t ∈ timers) (hnd : (timers.map (·.key)).Nodup) (hT : t.next ≤ T) :
    waiting T none timers = waiting T (some t.key) timers + 1 := by
  rw [← waiting_none_remove, waiting, (perm_removeTimer ht hnd).countP_eq,
    List.countP_cons_of_pos (by simpa using hT), waiting]

/-- How many timers have been put on the list to come due by the time `T`. -/
def Pass.soon (p : Pass) (T : ℤ) : ℕ := p.put.countP (· ≤ T)

theorem Pass.soon_cons (p : Pass) (T next : ℤ) :
    Pass.soon { p with put := next :: p.put } T = p.soon T + if next ≤ T then 1 else 0 := by
  simp [Pass.soon, List.countP_cons]

/-! ### The invariant -/

/-- What `exec_timers` is to do. No timer is touched that was freed, no timer that was due at a call
is left out, no timer is run that is not due, and a call goes on no longer than for the timers there
were and `N` more. -/
structure Safe (N : ℕ) (s : State) : Prop where
  fault : s.fault = false
  missed : s.missed = []
  log : ∀ c ∈ s.log, c.1 ≤ c.2
  calls : ∀ p ∈ s.pass, p.calls ≤ p.had + N

/-- What keeps a pass safe that is about to come to the timer `c`. -/
structure Coming (T : ℤ) (N : ℕ) (q : Queue) (p : Pass) (c : Option ℕ) : Prop where
  walking : Walking q.timers q.now p.due none c
  calls : p.calls + waiting T none q.timers ≤ p.had + p.soon T
  soon : p.soon T ≤ N

/-- What keeps a pass safe whose callback runs. -/
structure Held (T : ℤ) (N : ℕ) (q : Queue) (p : Pass) : Prop where
  walking : Walking q.timers q.now p.due (some p.tep) p.tep2
  running : p.tep ∈ q.timers.map (·.key)
  calls : p.calls + waiting T (some p.tep) q.timers ≤ p.had + p.soon T
  soon : p.soon T ≤ N

/-- What the steps keep. -/
structure Guarded (T : ℤ) (N : ℕ) (s : State) : Prop extends Safe N s where
  listed : Listed s.q
  held : ∀ p ∈ s.pass, Held T N s.q p

theorem guarded_start (T : ℤ) (N : ℕ) (now : ℤ) : Guarded T N (start now) where
  fault := rfl
  missed := rfl
  log := by simp [start]
  calls := by simp [start]
  listed := listed_empty now
  held := by simp [start]

variable {s s' : State} {a : Action} {p : Pass} {N : ℕ}

/-- The callback of the timer that the walk has come to is called. -/
theorem Coming.run (hp : Coming T N q p (some t.key)) (hq : Listed q) (ht : t ∈ q.timers)
    (hT : t.next ≤ T) :
    Held T N q { p with
      tep := t.key
      tep2 := (Cursor.behind (·.key) t.key q.timers).head?.map (·.key)
      due := p.due.filter (· ≠ t.key)
      calls := p.calls + 1 } where
  walking := by
    refine ⟨?_, ?_, ?_, ?_⟩
    · rintro k hk
      obtain ⟨u, hu, rfl⟩ := Option.map_eq_some_iff.1 hk
      exact List.mem_map_of_mem (Cursor.behind_suffix.subset (List.mem_of_head? hu))
    · rintro k hk heq
      obtain rfl := Option.some.inj heq
      obtain ⟨u, hu, huk⟩ := Option.map_eq_some_iff.1 hk
      refine Agenda.notMem_behind ht hq.keys ?_
      exact List.mem_map.2 ⟨u, List.mem_of_head? hu, huk⟩
    · rintro k hk heq
      obtain rfl := Option.some.inj heq
      simpa using (List.mem_filter.1 hk).2
    · rintro k hk
      obtain ⟨hk, hne⟩ := List.mem_filter.1 hk
      obtain ⟨u, hu, rfl, hle, c', hc', hahead⟩ := hp.walking.due k hk
      cases hc'
      rw [Agenda.ahead_eq_cons ht hq.keys, List.mem_cons] at hahead
      have htail := hahead.resolve_left fun heq => by simp [heq] at hne
      cases hbehind : Cursor.behind (fun v : Timer => v.key) t.key q.timers with
      | nil =>
        rw [hbehind] at htail
        cases htail
      | cons v tail =>
        refine ⟨u, hu, rfl, hle, v.key, rfl, ?_⟩
        rw [Agenda.ahead_next hq.keys hbehind, ← hbehind]
        exact htail
  running := List.mem_map_of_mem ht
  calls := by
    have hcalls := hp.calls
    have hwait := waiting_none ht hq.keys hT
    show p.calls + 1 + waiting T (some t.key) q.timers ≤ p.had + p.soon T
    omega
  soon := hp.soon

/-- The head of the loop. -/
theorem Guarded.head (hs : Safe N s) (hq : Listed s.q) (hp : Coming T N s.q p c)
    (hT : s.q.now ≤ T) : Guarded T N (s.head p c) := by
  have hover : p.due = [] → Guarded T N (s.ended p) := by
    intro hdue
    refine ⟨⟨hs.fault, ?_, hs.log, by simp [State.ended]⟩, hq, by simp [State.ended]⟩
    show p.due ++ s.missed = []
    rw [hdue, hs.missed, List.append_nil]
  cases c with
  | none =>
    refine hover (List.eq_nil_iff_forall_not_mem.2 fun k hk => ?_)
    obtain ⟨t, -, -, -, c', hc', -⟩ := hp.walking.due k hk
    cases hc'
  | some tep =>
    obtain ⟨t, ht, rfl⟩ := List.mem_map.1 (hp.walking.there tep rfl)
    rw [State.head, hq.find_key ht]
    dsimp only
    split
    · rename_i hnext
      refine ⟨⟨hs.fault, hs.missed, ?_, ?_⟩, hq, ?_⟩
      · rintro call hcall
        rcases List.mem_cons.1 hcall with rfl | hcall
        · exact hnext
        · exact hs.log call hcall
      all_goals
        rintro p' hp'
        obtain rfl := Option.some.inj hp'
      · have hcalls := hp.calls
        have hsoon := hp.soon
        have hwait := waiting_none ht hq.keys (hnext.trans hT)
        show p.calls + 1 ≤ p.had + N
        omega
      · exact hp.run hq ht (hnext.trans hT)
    · rename_i hnext
      -- the list is ordered: nothing ahead is due
      refine hover (List.eq_nil_iff_forall_not_mem.2 fun k hk => ?_)
      obtain ⟨u, hu, rfl, hle, c', hc', hahead⟩ := hp.walking.due k hk
      cases hc'
      have hge : t.next ≤ u.next := hq.ordered.le_of_mem_ahead ht hq.keys hahead
      exact hnext (hge.trans hle)

/-! ### The condition -/

/-- One more timer may be put on the list. -/
def Pass.Room (p : Pass) (T : ℤ) (N : ℕ) (next : ℤ) : Prop :=
  (next :: p.put).countP (· ≤ T) ≤ N

/-- Neither the timer that runs nor the next one is destroyed. -/
def SparesWalk (q : Queue) (p : Pass) (ref : ℕ) : Prop :=
  ∀ t ∈ findTimer ref q.timers, t.key ≠ p.tep ∧ p.tep2 ≠ some t.key

/-- A timer is set to another time. If it is due and has not run it stays due, and behind the next
one; if it is the next one it stays in front of what is due. -/
def KeepsWalk (T : ℤ) (N : ℕ) (q : Queue) (p : Pass) (ref : ℕ) (next : ℤ) : Prop :=
  ∀ t ∈ findTimer ref q.timers, p.Room T N next ∧
    (t.key ∈ p.due → next ≤ q.now ∧
      (p.tep2 ≠ some t.key → ∀ v ∈ q.timers, p.tep2 = some v.key → v.next ≤ next)) ∧
    (p.tep2 = some t.key → ∀ v ∈ q.timers, v.key ∈ p.due → v.key ≠ t.key → next < v.next)

/-- The clock does not go back before what is due, and the timer that has run may be put back. -/
def PassesOn (T : ℤ) (N : ℕ) (q : Queue) (p : Pass) (now : ℤ) : Prop :=
  now ≤ T ∧ (∀ t ∈ q.timers, t.key ∈ p.due → t.next ≤ now) ∧
    ∀ t ∈ q.timers, t.key = p.tep → t.last = false → p.Room T N (t.again q.now).next

/-- The condition on a step. In a call the clock does not get past `T`, and no more than `N` timers
are put on the list to be due by then. -/
def Orderly (T : ℤ) (N : ℕ) (s : State) (a : Action) : Prop :=
  match a, s.pass with
  | .exec now, _ => now ≤ T
  | .create _ interval _ _, some p => p.Room T N (s.q.now + interval)
  | .destroy ref, some p => SparesWalk s.q p ref
  | .adjust ref _ interval, some p => KeepsWalk T N s.q p ref (s.q.now + interval)
  | .ret now, some p => PassesOn T N s.q p now
  | _, _ => True

/-! ### The steps -/

variable {rep interval : ℤ} {callback udata : ℕ}

/-- The pass takes note of a timer that is put on the list. -/
theorem calls_insert {calls had : ℕ} (u : Timer)
    (h : calls + waiting T tep timers ≤ had + p.soon T) :
    calls + waiting T tep (insertTimer u timers) ≤
      had + Pass.soon { p with put := u.next :: p.put } T := by
  have hwait := @waiting_insert_le tep T u timers
  rw [Pass.soon_cons]
  omega

theorem Held.created {q' : Queue} (hp : Held T N q p) (hq : Listed q)
    (hq' : q'.now = q.now) (htimers : q'.timers = insertTimer t q.timers) (hkey : t.key = q.keys)
    (hroom : p.Room T N t.next) : Held T N q' { p with put := t.next :: p.put } where
  walking := by
    rw [hq', htimers]
    refine hp.walking.insert fun hin => ?_
    obtain ⟨u, hu, huk⟩ := List.mem_map.1 hin
    exact (hq.lt u hu).ne (huk.trans hkey)
  running := by
    obtain ⟨u, hu, huk⟩ := List.mem_map.1 hp.running
    rw [htimers]
    exact List.mem_map.2 ⟨u, mem_insertTimer.2 (Or.inr hu), huk⟩
  calls := by
    rw [htimers]
    exact calls_insert t hp.calls
  soon := hroom

theorem Held.destroyed (hp : Held T N q p) (ht : t.key ≠ p.tep ∧ p.tep2 ≠ some t.key) :
    Held T N { q with timers := removeTimer t.key q.timers }
      { p with due := p.due.filter (· ≠ t.key) } where
  walking := hp.walking.remove ht.2
  running := by
    obtain ⟨u, hu, huk⟩ := List.mem_map.1 hp.running
    exact List.mem_map.2 ⟨u, mem_removeTimer.2 ⟨hu, fun heq => ht.1 (heq ▸ huk)⟩, huk⟩
  calls := (Nat.add_le_add_left (waiting_remove_le t.key) _).trans hp.calls
  soon := hp.soon

theorem Held.adjusted (hp : Held T N q p) (hq : Listed q) (hfind : findTimer ref q.timers = some t)
    (hkey : u.key = t.key) (h : KeepsWalk T N q p ref u.next) :
    Held T N { q with timers := insertTimer u (removeTimer t.key q.timers) }
      { p with put := u.next :: p.put } := by
  obtain ⟨hroom, hdue, hcur⟩ := h t hfind
  refine ⟨hp.walking.moved hq.ordered hq.keys hkey (fun hk => ?_) hcur, ?_, ?_, hroom⟩
  · obtain ⟨hnext, hle⟩ := hdue hk
    refine ⟨hnext, fun hne => ?_⟩
    obtain ⟨-, -, -, -, c, hc, -⟩ := hp.walking.due t.key hk
    obtain ⟨v, hv, rfl⟩ := List.mem_map.1 (hp.walking.there c hc)
    exact ⟨v, hv, hc, hle hne v hv hc⟩
  · obtain ⟨v, hv, hvk⟩ := List.mem_map.1 hp.running
    by_cases hvt : v.key = t.key
    · exact List.mem_map.2 ⟨u, mem_insertTimer.2 (Or.inl rfl), hkey.trans (hvt.symm.trans hvk)⟩
    · exact List.mem_map.2
        ⟨v, mem_insertTimer.2 (Or.inr (mem_removeTimer.2 ⟨hv, hvt⟩)), hvk⟩
  · exact calls_insert u ((Nat.add_le_add_left (waiting_remove_le t.key) _).trans hp.calls)

/-- The walk goes on when the callback has returned. -/
theorem Held.coming (hp : Held T N q p) (hq : Listed q) (ht : t ∈ q.timers) (htep : t.key = p.tep)
    {now : ℤ} (h : PassesOn T N q p now) :
    Coming T N { q.afterwards t with now := now }
      { p with put := if t.last then p.put else (t.again q.now).next :: p.put } p.tep2 := by
  obtain ⟨-, hclock, hroom⟩ := h
  have hidle : t.key ∉ p.due := fun hk => hp.walking.idle t.key hk (congrArg some htep.symm)
  have hother : p.tep2 ≠ some t.key := fun hc => hp.walking.other t.key hc (congrArg some htep.symm)
  have hcalls := hp.calls
  rw [Queue.afterwards]
  by_cases hlast : t.last = true
  · rw [if_pos hlast, if_pos hlast, Queue.destroyTimer, hq.findTimer ht]
    have hwalk := hp.walking.remove hother
    rw [List.filter_eq_self.2 fun k hk => by simpa using fun heq : k = t.key => hidle (heq ▸ hk)]
      at hwalk
    refine ⟨(hwalk.clock fun u hu => hclock u (mem_removeTimer.1 hu).1).stopped, ?_, hp.soon⟩
    show p.calls + waiting T none (removeTimer t.key q.timers) ≤ p.had + p.soon T
    rw [waiting_none_remove, htep]
    exact hcalls
  · rw [if_neg hlast, if_neg hlast]
    have hwalk := hp.walking.moved (u := t.again q.now) hq.ordered hq.keys rfl
      (fun hk => absurd hk hidle) fun hc => absurd hc hother
    refine ⟨(hwalk.clock fun u hu hk => ?_).stopped, ?_,
      hroom t ht htep (eq_false_of_ne_true hlast)⟩
    · rcases mem_insertTimer.1 hu with rfl | hu
      · exact absurd hk hidle
      · exact hclock u (mem_removeTimer.1 hu).1 hk
    · rw [← htep, ← waiting_none_remove] at hcalls
      exact calls_insert (t.again q.now) hcalls

/-- The call of `exec_timers`. -/
theorem coming_exec (q : Queue) (T now : ℤ) (N : ℕ) :
    Coming T N { q with now := now }
      { tep := 0, tep2 := none, had := q.timers.length, calls := 0, put := [],
        due := (q.timers.filter (·.next ≤ now)).map (·.key) } (q.timers.head?.map (·.key)) where
  walking := by
    refine ⟨?_, by simp, by simp, ?_⟩
    · rintro k hk
      obtain ⟨t, ht, rfl⟩ := Option.map_eq_some_iff.1 hk
      exact List.mem_map_of_mem (List.mem_of_head? ht)
    · rintro k hk
      obtain ⟨t, ht, rfl⟩ := List.mem_map.1 hk
      obtain ⟨ht, hnext⟩ := List.mem_filter.1 ht
      refine ⟨t, ht, rfl, of_decide_eq_true hnext, ?_⟩
      rcases htimers : q.timers with _ | ⟨u, timers⟩
      · simp [htimers] at ht
      · refine ⟨u.key, rfl, ?_⟩
        rw [htimers] at ht
        exact (@Agenda.ahead_cons_self _ ℕ _ _ _ _).symm ▸ ht
  calls := by
    have hle : waiting T none q.timers ≤ q.timers.length := List.countP_le_length
    simpa [Pass.soon] using hle
  soon := by simp [Pass.soon]

/-- A step that meets the condition keeps the walk safe. -/
theorem Guarded.step (hs : Guarded T N s) (hG : Orderly T N s a) (h : Timers.step s a = some s') :
    Guarded T N s' := by
  unfold Timers.step at h
  split at h
  case isTrue => cases h
  case isFalse hfault =>
  split at h
  case h_1 rep interval callback udata =>
    obtain ⟨⟨q', ref⟩, hcreate, rfl⟩ := Option.map_eq_some_iff.1 h
    obtain ⟨t, refcnt, rollover, hnew, hkey, href, hnext, -, rfl⟩ := createTimer_eq_some hcreate
    refine ⟨⟨hs.fault, hs.missed, hs.log, ?_⟩, hs.listed.created hnew hkey href, ?_⟩
    all_goals
      rintro p' hp'
      obtain ⟨p, hp, rfl⟩ := Option.map_eq_some_iff.1 hp'
    · exact hs.calls p hp
    · simp only [Orderly, hp] at hG
      dsimp only
      rw [← hnext] at hG ⊢
      exact (hs.held p hp).created hs.listed rfl rfl hkey hG
  case h_2 ref =>
    obtain rfl := Option.some.inj h
    have hlisted := hs.listed.destroyTimer ref
    rw [Queue.destroyTimer] at hlisted ⊢
    rcases hfind : findTimer ref s.q.timers with _ | t
    · exact hs
    · simp only [hfind] at hlisted ⊢
      refine ⟨⟨hs.fault, hs.missed, hs.log, ?_⟩, hlisted, ?_⟩
      all_goals
        rintro p' hp'
        obtain ⟨p, hp, rfl⟩ := Option.map_eq_some_iff.1 hp'
      · exact hs.calls p hp
      · simp only [Orderly, hp] at hG
        exact (hs.held p hp).destroyed (hG t hfind)
  case h_3 ref reps interval =>
    obtain rfl := Option.some.inj h
    have hlisted := hs.listed.adjustTimer ref reps interval
    rw [Queue.adjustTimer] at hlisted ⊢
    rcases hfind : findTimer ref s.q.timers with _ | t
    · exact hs
    · simp only [hfind] at hlisted ⊢
      refine ⟨⟨hs.fault, hs.missed, hs.log, ?_⟩, hlisted, ?_⟩
      all_goals
        rintro p' hp'
        obtain ⟨p, hp, rfl⟩ := Option.map_eq_some_iff.1 hp'
      · exact hs.calls p hp
      · simp only [Orderly, hp] at hG
        exact (hs.held p hp).adjusted hs.listed hfind rfl hG
  case h_4 now hpass =>
    obtain rfl := Option.some.inj h
    have hlisted := hs.listed
    refine ⟨⟨hs.fault, hs.missed, hs.log, hs.calls⟩, ?_, by simp [hpass]⟩
    exact ⟨hlisted.ordered, hlisted.keys, hlisted.refs, hlisted.lt, hlisted.refcnt⟩
  case h_5 now hpass =>
    obtain rfl := Option.some.inj h
    have hlisted := hs.listed
    refine Guarded.head ⟨hs.fault, hs.missed, hs.log, hs.calls⟩ ?_ (coming_exec s.q T now N) ?_
    · exact ⟨hlisted.ordered, hlisted.keys, hlisted.refs, hlisted.lt, hlisted.refcnt⟩
    · exact hG
  case h_6 now p hpass =>
    obtain rfl := Option.some.inj h
    simp only [Orderly, hpass] at hG
    have hheld := hs.held p hpass
    obtain ⟨t, ht, htep⟩ := List.mem_map.1 hheld.running
    have hlisted := hs.listed.afterwards ht
    have hfind := hs.listed.find_key ht
    rw [htep] at hfind
    rw [State.ret, hfind]
    refine Guarded.head ⟨hs.fault, hs.missed, hs.log, hs.calls⟩ ?_
      (hheld.coming hs.listed ht htep hG) hG.1
    exact ⟨hlisted.ordered, hlisted.keys, hlisted.refs, hlisted.lt, hlisted.refcnt⟩
  case h_7 => cases h

/-- In a run whose steps meet the condition `exec_timers` does what it is to do. -/
theorem safe_of_run (T : ℤ) (N : ℕ) {now : ℤ} {as : List Action} {s : State}
    (hG : Run.Along step (Orderly T N) (start now) as)
    (hrun : Run.run step (start now) as = some s) : Safe N s :=
  (Run.run_invariant (fun _ _ _ hs hG h => Guarded.step hs hG h) (guarded_start T N now) hG
    hrun).toSafe

instance (q : Queue) (p : Pass) (ref : ℕ) : Decidable (SparesWalk q p ref) :=
  inferInstanceAs (Decidable (∀ t ∈ findTimer ref q.timers, t.key ≠ p.tep ∧ p.tep2 ≠ some t.key))

instance (T : ℤ) (N : ℕ) (p : Pass) (next : ℤ) : Decidable (p.Room T N next) :=
  inferInstanceAs (Decidable ((next :: p.put).countP (· ≤ T) ≤ N))

instance (T : ℤ) (N : ℕ) (q : Queue) (p : Pass) (ref : ℕ) (next : ℤ) :
    Decidable (KeepsWalk T N q p ref next) :=
  inferInstanceAs (Decidable (∀ t ∈ findTimer ref q.timers, p.Room T N next ∧
    (t.key ∈ p.due → next ≤ q.now ∧
      (p.tep2 ≠ some t.key → ∀ v ∈ q.timers, p.tep2 = some v.key → v.next ≤ next)) ∧
    (p.tep2 = some t.key → ∀ v ∈ q.timers, v.key ∈ p.due → v.key ≠ t.key → next < v.next)))

instance (T : ℤ) (N : ℕ) (q : Queue) (p : Pass) (now : ℤ) : Decidable (PassesOn T N q p now) :=
  inferInstanceAs (Decidable (now ≤ T ∧ (∀ t ∈ q.timers, t.key ∈ p.due → t.next ≤ now) ∧
    ∀ t ∈ q.timers, t.key = p.tep → t.last = false → p.Room T N (t.again q.now).next))

instance (T : ℤ) (N : ℕ) (s : State) : DecidablePred (Orderly T N s)
  | .exec now => inferInstanceAs (Decidable (now ≤ T))
  | .create _ interval _ _ => by
    unfold Orderly
    cases s.pass <;> infer_instance
  | .destroy ref => by
    unfold Orderly
    cases s.pass <;> infer_instance
  | .adjust ref _ interval => by
    unfold Orderly
    cases s.pass <;> infer_instance
  | .ret now => by
    unfold Orderly
    cases s.pass <;> infer_instance
  | .clock _ => isTrue trivial

/-- A repeating timer whose callback makes another one and destroys a third. -/
def threeTimers : List Action :=
  [.create (-1) 5 1 0, .create 0 6 2 0, .create 0 9 3 0, .exec 7, .create 0 2 4 0, .destroy 2,
    .ret 7, .ret 8, .exec 9, .ret 9]

theorem safe_of_run_three :
    ∃ s : State, Run.run step (start 0) threeTimers = some s ∧ Safe 2 s :=
  ⟨_, rfl, @safe_of_run 9 2 0 threeTimers _ (by decide) rfl⟩

/-- A timer that destroys itself is touched afterwards. -/
theorem safe_fails : ¬ ∀ (now : ℤ) (as : List Action) (s : State),
    Run.run step (start now) as = some s → ∃ N, Safe N s := by
  intro hall
  obtain ⟨N, hsafe⟩ := hall 0 [.create 0 5 1 0, .exec 5, .destroy 0, .ret 5] _ rfl
  exact absurd hsafe.fault (by decide)

end Timers

end Ithildin
