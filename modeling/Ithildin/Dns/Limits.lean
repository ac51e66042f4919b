import Ithildin.Dns.Answers
import Ithildin.Dns.Upkeep

/-!
# The limits of the lists

Both lists with a limit are checked for being just as long as it, so one that is longer than its
limit, which a new configuration may make lower, grows on. A run in which no list grows while it is
longer than its limit, and nothing is used that has been freed, leaves the lookups and their timers
as they should be (`upkept_of_run`).
-/

namespace Ithildin

namespace Dns

open Places

variable {F : Type} {s s' : State F} {key k : ℕ} {d dlp : Lookup F} {p : Place} {env : Env}

/-- What is to hold of the lists, their counts and the timers. A lookup that is being finished may
be without a timer. -/
structure Upkept (s : State F) : Prop where
  fault : s.fault = false
  listed : ∀ k dlp, s.mem k = some dlp → ∃ p, ∀ p', k ∈ s.lists p' ↔ p' = p
  once : ∀ p, (s.lists p).Nodup
  there : ∀ p, ∀ k ∈ s.lists p, (s.mem k).isSome
  counts : ∀ p, p ≠ .waiting → s.counts p = (s.lists p).length
  grown : s.grown = false
  timed : ∀ p, p ≠ .waiting → ∀ k ∈ s.lists p, k ∉ s.finishing →
    ∃ t ∈ s.q.timers, t.udata = k ∧ ∀ t' ∈ s.q.timers, t'.udata = k → t' = t
  owner : ∀ t ∈ s.q.timers, ∃ p, t.udata ∈ s.lists p

/-- What is kept is what is to hold, but for the limits. -/
theorem Kept.upkept (hs : Kept none none s) (hgrown : s.grown = false) : Upkept s where
  fault := hs.fault
  listed := by
    intro k dlp hdlp
    rcases hplace : dlp.place with _ | p
    · exact absurd hplace (hs.shelved.listed k dlp hdlp)
    · refine ⟨p, fun p' => ?_⟩
      rw [(hs.shelved.placed p').2, place_eq hdlp, hplace, Option.some.injEq]
      exact eq_comm
  once := fun p => (hs.shelved.placed p).1
  there := by
    intro p k hk
    obtain ⟨d, hd, -⟩ := Option.bind_eq_some_iff.1 (((hs.shelved.placed p).2 k).1 hk)
    exact Option.isSome_iff_exists.2 ⟨d, hd⟩
  counts := hs.shelved.counts
  grown := hgrown
  timed := by
    intro p hp k hk hidle
    obtain ⟨d, hd, hplace⟩ := Option.bind_eq_some_iff.1 (((hs.shelved.placed p).2 k).1 hk)
    have htimer : d.timer ≠ Timers.timerInvalid := by
      refine hs.timed k d hd (fun hw => hp ?_) hidle nofun
      exact Option.some.inj (hplace.symm.trans hw)
    obtain ⟨t, ht, href, hkey⟩ := (hs.has_iff hd).2 ⟨rfl, htimer⟩
    refine ⟨t, ht, hkey, fun t' ht' hkey' => ?_⟩
    have href' := (hs.has_iff hd).1 ⟨t', ht', rfl, hkey'⟩
    exact List.inj_on_of_nodup_map hs.queue.refs ht' ht (href'.1.trans href.symm)
  owner := by
    intro t ht
    obtain ⟨d, hd, -, -⟩ := (hs.clock t.ref t.udata).1 ⟨t, ht, rfl, rfl⟩
    rcases hplace : d.place with _ | p
    · exact absurd hplace (hs.shelved.listed t.udata d hd)
    · exact ⟨p, ((hs.shelved.placed p).2 t.udata).2 ((place_eq hd).trans hplace)⟩

/-! ### Growing -/

theorem Change.grown (h : Change False s s') : s'.grown = s.grown := by
  cases h with
  | modify key f _ => rfl
  | move key p head _ hgrow =>
    cases hkey : s.mem key with
    | none => rw [State.move_of_none hkey]
    | some d =>
      have hp : p = .waiting := not_not.1 fun hp => hgrow hp
      subst hp
      rw [State.move_eq hkey]
      simp
  | destroy key =>
    cases hkey : s.mem key with
    | none => rw [State.destroy_of_none hkey]
    | some d => rw [State.destroy_eq hkey]
  | serve key _ => rfl
  | other s' _ _ _ _ _ hgrown => exact hgrown

/-- Changes that put no lookup on a list with a limit. -/
theorem Changes.grown (h : Changes False s s') : s'.grown = s.grown :=
  h.keep (I := fun t => t.grown = s.grown) (fun _ _ ht hc => hc.grown.trans ht) rfl

/-- The active list may take one more. -/
theorem grown_send (hs : Shelved s) (hgrown : s.grown = false)
    (hroom : s.lists .waiting ≠ [] → s.counts .pending ≤ s.max) {wrote more : Bool} {junk : ℤ}
    (h : s.send env wrote junk = some (s', more)) : s'.grown = false := by
  rw [State.send] at h
  split at h
  · cases h
    exact hgrown
  · rename_i hcount
    split at h
    · cases h
      exact hgrown
    · rename_i key rest hlist
      have hwaiting : s.place key = some .waiting :=
        ((hs.placed .waiting).2 key).1 (by rw [hlist]; exact List.mem_cons_self)
      obtain ⟨d, hd, hplace⟩ := Option.bind_eq_some_iff.1 hwaiting
      rw [hd] at h
      dsimp only at h
      have hawaited : Awaited (s.move key .pending false) key := by
        rw [State.move_eq hd]
        intro d' hd'
        obtain rfl := eq_of_update hd'
        exact Or.inr rfl
      refine (changes_request hawaited h).grown.trans ?_
      have hle := hroom (by rw [hlist]; exact List.cons_ne_nil _ _)
      rw [State.move_eq hd, hgrown]
      simp only [hplace, State.counted, State.limit, Function.update_self, Bool.false_or]
      simp
      omega

/-- The lookup that is kept has room in the cache. -/
def Roomy (s : State F) (dlp : Lookup F) : Prop :=
  dlp.ttl ≠ 0 → (s.failure ∨ dlp.failed = false) → 0 < s.cacheMax → s.counts .cache ≤ s.cacheMax

theorem Shelved.room_evict (hs : Shelved s) (hpos : 0 < s.cacheMax)
    (hle : s.counts .cache ≤ s.cacheMax) :
    s.evict.counts .cache + 1 ≤ s.cacheMax ∧ s.evict.cacheMax = s.cacheMax := by
  rw [State.evict]
  split
  · rename_i hfull
    split
    · rename_i hnil
      have hcount := hs.counts .cache (by simp)
      rw [List.getLast?_eq_none_iff.1 hnil] at hcount
      simp only [List.length_nil] at hcount
      omega
    · rename_i last hlast
      have hcache : s.place last = some .cache :=
        ((hs.placed .cache).2 last).1 (List.mem_of_getLast? hlast)
      obtain ⟨dlp, hdlp, hplace⟩ := Option.bind_eq_some_iff.1 hcache
      rw [State.destroy_eq hdlp]
      refine ⟨?_, rfl⟩
      dsimp only
      rw [counted_apply (by simp), if_pos hplace]
      omega
  · exact ⟨by omega, rfl⟩

/-- The cache may take one more. -/
theorem grown_settle (hs : Kept none (some key) s) (hd : s.mem key = some d)
    (hplace : d.place ≠ some .cache) (hspare : s.q.Spare) (hgrown : s.grown = false)
    (hroom : Roomy s d) (h : s.settle key = some s') : s'.grown = false := by
  rw [State.settle, hd] at h
  refine (changes_keep h).grown.trans ?_
  rw [State.toCache]
  have hevict : s.evict.grown = false := (changes_evict.grown).trans hgrown
  split
  · rename_i hcached
    split
    · rename_i hpos
      obtain ⟨hle, hmax⟩ := hs.shelved.room_evict hpos (hroom hcached.1 hcached.2 hpos)
      rw [State.move_eq (hs.evict hd hplace hspare).2.1]
      dsimp only
      rw [hevict, counted_apply (by simp), counted_apply (by simp), if_pos rfl, if_neg hplace,
        State.limit, hmax, decide_eq_false (not_lt.2 hle)]
      rfl
    · exact hevict
  · exact hgrown

/-! ### Runs -/

variable [DecidableEq F]

/-- The condition on a step for the lists not to grow beyond their limits. -/
def Bounded (s : State F) : Action F → Prop
  | .send _ _ => s.lists .waiting ≠ [] → s.counts .pending ≤ s.max
  | .settle => ∀ frame ∈ s.frames.head?, ∀ key ∈ frame.lookup, ∀ dlp ∈ s.mem key, Roomy s dlp
  | _ => True

theorem grown_step {a : Action F} (hs : Kept none none s) (hgrown : s.grown = false)
    (hG : Steady env s a) (hB : Bounded s a) (h : Stepped env s a s') : s'.grown = false := by
  have hgrown' : ∀ {t : State F}, Changes False s t → t.grown = false :=
    fun h => h.grown.trans hgrown
  cases h with
  | lookup rrClass type data callback _ =>
    by_cases hnew : data.length ≤ maxNamelen ∧ s.findLookup rrClass type data = none
    · rw [lookup_eq_make callback hnew.1 hnew.2, State.make_eq]
      exact hgrown
    · exact hgrown' (changes_lookup callback hnew)
  | cancel callback _ => exact hgrown' (changes_cancel callback)
  | @once rest _ wrote junk _ more h =>
    have hshelved : Shelved { s with frames := rest } := hs.shelved.other rfl rfl rfl rfl
    exact grown_send hshelved hgrown hB h
  | more _ wrote junk _ h => exact grown_send hs.shelved hgrown hB h
  | last _ wrote junk t h => exact @grown_send F s t env hs.shelved hgrown hB wrote false junk h
  | ret _ => exact hgrown' changes_ret
  | @served rest _ => exact hgrown
  | @settle key rest hframes _ h =>
    obtain ⟨d, hd, hplace⟩ := hs.there (k := key)
      (mem_finishing.2 ⟨.ended key, hframes ▸ List.mem_cons_self, rfl⟩)
    have hended : Kept none (some key) { s with frames := rest } := hs.pop hframes nofun
    refine grown_settle hended hd hplace hG hgrown ?_ h
    exact hB (.ended key) (by rw [hframes]; rfl) key rfl d hd
  | poll _ => exact hgrown
  | reply _ pkt _ h =>
    obtain ⟨o, -, ⟨-, h⟩ | ⟨id, r, key, dlp, -, -, -, -, h⟩⟩ := changes_reply hs.shelved h
    · exact hgrown' h
    · exact h.grown.trans hgrown
  | tick _ ref _ h => exact hgrown' (changes_tick hs.shelved h)
  | reload _ conf sock => exact hgrown' (changes_reload conf sock)
  | clock _ now => exact hgrown

/-- In a run whose steps meet the conditions the lookups and their timers are as they should be. -/
theorem upkept_of_run (env : Env) {now : ℤ} {as : List (Action F)}
    (hG : Run.Along (step env) (fun s a => Steady env s a ∧ Bounded s a) (start now) as)
    (hrun : Run.run (step env) (start now) as = some s) : Upkept s := by
  have hkept := Run.run_invariant (I := fun s => Kept none none s ∧ s.grown = false)
    (fun _ _ _ hs hG h =>
      ⟨hs.1.step hG.1 (stepped h).2, grown_step hs.1 hs.2 hG.1 hG.2 (stepped h).2⟩)
    ⟨kept_start now, rfl⟩ hG hrun
  exact hkept.1.upkept hkept.2

instance (s : State F) (dlp : Lookup F) : Decidable (Roomy s dlp) :=
  inferInstanceAs (Decidable (dlp.ttl ≠ 0 → (s.failure ∨ dlp.failed = false) → 0 < s.cacheMax →
    s.counts .cache ≤ s.cacheMax))

instance (s : State F) : DecidablePred (Bounded s)
  | .send _ _ => inferInstanceAs (Decidable (s.lists .waiting ≠ [] → s.counts .pending ≤ s.max))
  | .settle => inferInstanceAs (Decidable (∀ frame ∈ s.frames.head?, ∀ key ∈ frame.lookup,
      ∀ dlp ∈ s.mem key, Roomy s dlp))
  | .lookup _ _ _ _ | .cancel _ | .ret | .poll | .reply _ | .tick _ | .reload _ _ | .clock _ =>
    isTrue trivial

/-- A lookup is answered and cached, and given to a second call; then it expires. -/
def lookupExpired : List (Action ℕ) :=
  lookupA (bytes "a") ++
    [.ret, .settle, .lookup 1 1 (bytes "A") 1, .ret, .clock 3600, .tick 0]

theorem upkept_of_run_expired :
    ∃ s, Run.run (step labelEnv) (start 0) lookupExpired = some s ∧ Upkept s := by
  have hsome : (Run.run (step labelEnv) (start 0) lookupExpired).isSome := by decide +kernel
  obtain ⟨s, hs⟩ := Option.isSome_iff_exists.1 hsome
  exact ⟨s, hs, upkept_of_run labelEnv (by decide +kernel) hs⟩

/-- Two queries are out when the configuration comes to allow one, and a third one is made. -/
def threeOut : List (Action ℕ) :=
  [.reload { defaultConf with max := 2 } true, .lookup 1 1 (bytes "a") 0, .send true 0,
    .lookup 1 1 (bytes "b") 0, .send true 0, .reload { defaultConf with max := 1 } true,
    .lookup 1 1 (bytes "c") 0, .send true 0]

/-- The active list grows beyond its limit. -/
theorem upkept_fails : ¬ ∀ (env : Env) (now : ℤ) (as : List (Action ℕ)) (s : State ℕ),
    Run.run (step env) (start now) as = some s → Upkept s := by
  intro hall
  have hgrown : (Run.run (step labelEnv) (start 0) threeOut).map (·.grown) = some true := by
    decide +kernel
  obtain ⟨s, hs, htrue⟩ := Option.map_eq_some_iff.1 hgrown
  exact absurd ((hall labelEnv 0 _ s hs).grown.symm.trans htrue) Bool.false_ne_true

end Dns

end Ithildin
