import Ithildin.Timer.Exec

/-!
# What the timers are for

Who makes a timer keeps its reference, and has the timer know what it is for. `Has q ref udata` says
that there is such a timer. A reference is for one thing, and the functions change no other timer
than the one they are given.
-/

namespace Ithildin

namespace Timers

variable {q q' : Queue} {ref r u u' : ℕ}

/-- There is a timer with this reference, for this. -/
def Queue.Has (q : Queue) (ref udata : ℕ) : Prop :=
  ∃ t ∈ q.timers, t.ref = ref ∧ t.udata = udata

theorem not_has_empty (now : ℤ) : ¬ (Queue.empty now).Has r u := by
  rintro ⟨t, ht, -⟩
  cases ht

theorem Listed.has_unique (hq : Listed q) (h : q.Has r u) (h' : q.Has r u') : u = u' := by
  obtain ⟨t, ht, htr, rfl⟩ := h
  obtain ⟨t', ht', htr', rfl⟩ := h'
  rw [List.inj_on_of_nodup_map hq.refs ht ht' (htr.trans htr'.symm)]

theorem Listed.has_destroyTimer (hq : Listed q) :
    (q.destroyTimer ref).Has r u ↔ q.Has r u ∧ r ≠ ref := by
  rw [Queue.destroyTimer]
  split
  · rename_i hnone
    have hnot : ref ∉ q.timers.map (·.ref) := fun hin => by
      rw [← findTimer_isSome, hnone] at hin
      cases hin
    refine ⟨fun h => ⟨h, ?_⟩, And.left⟩
    rintro rfl
    obtain ⟨t, ht, htr, -⟩ := h
    exact hnot (List.mem_map.2 ⟨t, ht, htr⟩)
  · rename_i t hfind
    obtain ⟨ht, rfl⟩ := findTimer_eq_some hfind
    constructor
    · rintro ⟨v, hv, rfl, rfl⟩
      obtain ⟨hv, hvk⟩ := mem_removeTimer.1 hv
      exact ⟨⟨v, hv, rfl, rfl⟩,
        fun href => hvk (congrArg Timer.key (List.inj_on_of_nodup_map hq.refs hv ht href))⟩
    · rintro ⟨⟨v, hv, rfl, rfl⟩, hne⟩
      refine ⟨v, mem_removeTimer.2 ⟨hv, fun hvk => hne ?_⟩, rfl, rfl⟩
      rw [List.inj_on_of_nodup_map hq.keys hv ht hvk]

theorem Listed.has_adjustTimer (hq : Listed q) (ref : ℕ) (reps interval : ℤ) :
    (q.adjustTimer ref reps interval).Has r u ↔ q.Has r u := by
  rw [Queue.adjustTimer]
  split
  · exact Iff.rfl
  · rename_i t hfind
    obtain ⟨ht, -⟩ := findTimer_eq_some hfind
    constructor
    · rintro ⟨v, hv, rfl, rfl⟩
      rcases mem_insertTimer.1 hv with rfl | hv
      · exact ⟨t, ht, rfl, rfl⟩
      · exact ⟨v, (mem_removeTimer.1 hv).1, rfl, rfl⟩
    · rintro ⟨v, hv, rfl, rfl⟩
      by_cases hvk : v.key = t.key
      · obtain rfl := List.inj_on_of_nodup_map hq.keys hv ht hvk
        exact ⟨_, mem_insertTimer.2 (Or.inl rfl), rfl, rfl⟩
      · exact ⟨v, mem_insertTimer.2 (Or.inr (mem_removeTimer.2 ⟨hv, hvk⟩)), rfl, rfl⟩

theorem has_createTimer {rep interval : ℤ} {callback udata : ℕ}
    (h : q.createTimer rep interval callback udata = some (q', ref)) :
    q'.Has r u ↔ (r = ref ∧ u = udata) ∨ q.Has r u := by
  obtain ⟨t, refcnt, rollover, -, -, rfl, -, rfl, rfl⟩ := createTimer_eq_some h
  constructor
  · rintro ⟨v, hv, rfl, rfl⟩
    rcases mem_insertTimer.1 hv with rfl | hv
    · exact Or.inl ⟨rfl, rfl⟩
    · exact Or.inr ⟨v, hv, rfl, rfl⟩
  · rintro (⟨rfl, rfl⟩ | ⟨v, hv, rfl, rfl⟩)
    · exact ⟨t, mem_insertTimer.2 (Or.inl rfl), rfl, rfl⟩
    · exact ⟨v, mem_insertTimer.2 (Or.inr hv), rfl, rfl⟩

theorem Listed.createTimer {rep interval : ℤ} {callback udata : ℕ} (hq : Listed q)
    (h : q.createTimer rep interval callback udata = some (q', ref)) :
    Listed q' ∧ ∀ u, ¬ q.Has ref u := by
  obtain ⟨t, refcnt, rollover, hnew, hkey, href, -, -, rfl⟩ := createTimer_eq_some h
  refine ⟨hq.created hnew hkey href, ?_⟩
  rintro u ⟨v, hv, hvr, -⟩
  exact (hq.newRef hnew).1 (List.mem_map.2 ⟨v, hv, hvr⟩)

/-! ### The reference that stands for none -/

/-- The next reference that is not in use comes before `TIMER_INVALID`. -/
def Queue.Spare (q : Queue) : Prop :=
  (if q.rollover then q.refcnt else 0) + q.timers.length < timerInvalid

theorem Queue.Spare.destroyTimer (h : q.Spare) (ref : ℕ) : (q.destroyTimer ref).Spare := by
  rw [Queue.destroyTimer]
  split
  · exact h
  · rename_i t _
    have hle : (removeTimer t.key q.timers).length ≤ q.timers.length := List.length_filter_le _ _
    exact (Nat.add_le_add_left hle _).trans_lt h

theorem unusedRef_lt {timers : List Timer} {n : ℕ} (h : unusedRef timers n ref = some r)
    (hn : ref + n ≤ 2 ^ 64) : r < ref + n := by
  induction n generalizing ref with
  | zero => cases h
  | succ n ih =>
    rw [unusedRef] at h
    split at h
    · rcases n with _ | n
      · cases h
      · rw [Nat.mod_eq_of_lt (by omega)] at h
        have hlt := ih h (by omega)
        omega
    · cases h
      omega

/-- Then no new timer has the reference `TIMER_INVALID`. -/
theorem Queue.Spare.createTimer {rep interval : ℤ} {callback udata : ℕ} (h : q.Spare)
    (hcreate : q.createTimer rep interval callback udata = some (q', ref)) :
    ref ≠ timerInvalid := by
  obtain ⟨t, refcnt, rollover, hnew, -⟩ := createTimer_eq_some hcreate
  rw [Queue.newRef] at hnew
  rw [Queue.Spare, timerInvalid] at h
  split at hnew
  · rename_i hroll
    obtain ⟨r, hr, hnew⟩ := Option.map_eq_some_iff.1 hnew
    cases hnew
    rw [if_pos hroll] at h
    have hlt := unusedRef_lt hr (by omega)
    rw [timerInvalid]
    omega
  · rename_i hroll
    rw [if_neg hroll] at h
    split at hnew
    · rename_i hinvalid
      obtain ⟨r, hr, hnew⟩ := Option.map_eq_some_iff.1 hnew
      cases hnew
      rw [hinvalid, timerInvalid] at hr
      have hlt := unusedRef_lt hr (by omega)
      rw [timerInvalid]
      omega
    · rename_i hinvalid
      cases hnew
      exact hinvalid

end Timers

end Ithildin
