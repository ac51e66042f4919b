import Ithildin.Dns.Machine

/-!
# The three lists of lookups

Every step is made of a few changes (`Change`): a lookup is moved to a list, destroyed or made, some
of its other fields change, or something changes that no lookup is in. So much of what holds of the
lists holds in every run: a lookup is on the list that its flag says and on no other, and the counts
are the lengths (`Shelved`).
-/

namespace Ithildin

namespace Dns

open Places

variable {F : Type} {s s' t : State F} {key k : ℕ} {dlp : Lookup F} {p : Place} {head : Bool}
  {g : Prop}

/-! ### The functions on the lists -/

namespace State

/-- The flag of the lookup at an address. -/
def place (s : State F) (k : ℕ) : Option Place := (s.mem k).bind (·.place)

theorem modify_mem (f : Lookup F → Lookup F) :
    (s.modify key f).mem k = if k = key then (s.mem k).map f else s.mem k := by
  rw [modify]
  dsimp only
  split
  · rename_i hk
    rw [hk, Function.update_self]
  · rename_i hk
    rw [Function.update_of_ne hk]

theorem modify_mem_self {f : Lookup F → Lookup F} (h : s.mem key = some dlp) :
    (s.modify key f).mem key = some (f dlp) := by
  rw [modify_mem, if_pos rfl, h]
  rfl

theorem isSome_modify_mem (f : Lookup F → Lookup F) :
    ((s.modify key f).mem k).isSome = (s.mem k).isSome := by
  rw [modify_mem]
  split
  · exact Option.isSome_map
  · rfl

theorem place_modify {f : Lookup F → Lookup F} (hf : ∀ dlp, (f dlp).place = dlp.place) :
    (s.modify key f).place = s.place := by
  funext k
  rw [place, place, modify_mem]
  split
  · cases s.mem k with
    | none => rfl
    | some dlp => exact hf dlp
  · rfl

theorem move_eq (h : s.mem key = some dlp) :
    s.move key p head =
      { s with
        lists := put (head || (take key dlp.place s.lists p).isEmpty) key p
          (take key dlp.place s.lists)
        counts := counted (counted s.counts dlp.place (-1)) (some p) 1
        mem := Function.update s.mem key (some { dlp with place := some p })
        grown := s.grown || (p ≠ .waiting && decide
          (s.limit p < counted (counted s.counts dlp.place (-1)) (some p) 1 p)) } := by
  simp only [move, h]
  rw [link, modify, unlink]
  simp only [h, Option.map_some]
  cases p <;> rfl

theorem move_of_none (h : s.mem key = none) : s.move key p head = { s with fault := true } := by
  rw [move, h]

theorem freeTimer_eq (dlp : Lookup F) : s.freeTimer dlp = { s with q := (s.freeTimer dlp).q } := by
  rw [freeTimer]
  split <;> rfl

theorem destroy_eq (h : s.mem key = some dlp) :
    s.destroy key =
      { s with
        lists := take key dlp.place s.lists
        counts := counted s.counts dlp.place (-1)
        q := (s.freeTimer dlp).q
        mem := Function.update s.mem key none } := by
  rw [destroy, h]
  dsimp only
  rw [freeTimer_eq, freeTimer, freeTimer]
  split <;> rfl

theorem destroy_of_none (h : s.mem key = none) : s.destroy key = { s with fault := true } := by
  rw [destroy, h]

end State

/-! ### The lists -/

/-- A lookup is on the list of its flag and on no other, and the counts are right. -/
structure Shelved (s : State F) : Prop where
  placed : Placed s.lists s.place
  listed : ∀ k dlp, s.mem k = some dlp → dlp.place ≠ none
  counts : ∀ p, p ≠ .waiting → s.counts p = (s.lists p).length
  fresh : ∀ k, s.keys ≤ k → s.mem k = none

theorem shelved_start (now : ℤ) : Shelved (start now : State F) where
  placed := fun p => ⟨List.nodup_nil, by simp [start, State.place]⟩
  listed := by simp [start]
  counts := by simp [start]
  fresh := fun k _ => rfl

theorem named_place (dlp : Lookup F) :
    dlp.named.place = dlp.place ∧ dlp.named.id = dlp.id := by
  rw [Lookup.named]
  split <;> exact ⟨rfl, rfl⟩

theorem place_eq (h : s.mem key = some dlp) : s.place key = dlp.place := by
  rw [State.place, h]
  rfl

theorem counted_apply {counts : Place → ℤ} {o : Option Place} {n : ℤ} (hp : p ≠ .waiting) :
    State.counted counts o n p = if o = some p then counts p + n else counts p := by
  rcases o with _ | o
  · rfl
  · by_cases h : o = p
    · subst h
      cases o with
      | waiting => exact absurd rfl hp
      | pending | cache => simp [State.counted]
    · cases o with
      | waiting => simp [State.counted, h]
      | pending | cache => simp [State.counted, h, Function.update_of_ne (Ne.symm h)]

theorem Shelved.length_take (hs : Shelved s) (h : s.mem key = some dlp) (hp : p ≠ .waiting) :
    State.counted s.counts dlp.place (-1) p = (take key dlp.place s.lists p).length := by
  rw [counted_apply hp, hs.counts p hp]
  split
  · rename_i hplace
    have hlen := hs.placed.length_take_self ((place_eq h).trans hplace)
    rw [hplace]
    omega
  · rename_i hplace
    rw [take_of_ne hplace]

theorem Shelved.modify {f : Lookup F → Lookup F} (hs : Shelved s)
    (hf : ∀ dlp, (f dlp).place = dlp.place) : Shelved (s.modify key f) := by
  refine ⟨?_, ?_, hs.counts, ?_⟩
  · exact hs.placed.congr fun k => congrFun (State.place_modify hf) k
  · intro k dlp hk
    rw [State.modify_mem] at hk
    split at hk
    · obtain ⟨dlp, hdlp, rfl⟩ := Option.map_eq_some_iff.1 hk
      rw [hf]
      exact hs.listed k dlp hdlp
    · exact hs.listed k dlp hk
  · intro k hk
    have hnone := hs.fresh k hk
    rw [← Option.isNone_iff_eq_none, ← Option.not_isSome] at hnone ⊢
    rwa [State.isSome_modify_mem]

theorem Shelved.move (hs : Shelved s) (key : ℕ) (p : Place) (head : Bool) :
    Shelved (s.move key p head) := by
  cases h : s.mem key with
  | none =>
    rw [State.move_of_none h]
    exact ⟨hs.placed, hs.listed, hs.counts, hs.fresh⟩
  | some dlp =>
    rw [State.move_eq h]
    have hplace : State.place { s with
        mem := Function.update s.mem key (some { dlp with place := some p }) } =
        Function.update (Function.update s.place key none) key (some p) := by
      rw [Function.update_idem]
      funext k
      rw [State.place]
      by_cases hk : k = key
      · subst hk
        simp
      · simp [hk, State.place]
    refine ⟨?_, ?_, ?_, ?_⟩
    · have htake := hs.placed.take key
      rw [place_eq h] at htake
      exact (htake.put (Function.update_self key none s.place) _ p).congr (congrFun hplace)
    · intro k dlp' hk
      dsimp only at hk
      by_cases hkey : k = key
      · subst hkey
        rw [Function.update_self] at hk
        cases hk
        simp
      · rw [Function.update_of_ne hkey] at hk
        exact hs.listed k dlp' hk
    · intro p' hp'
      dsimp only
      rw [counted_apply hp', hs.length_take h hp']
      by_cases heq : p' = p
      · subst heq
        rw [if_pos rfl, length_put_self]
        norm_cast
      · rw [if_neg fun hsome => heq (Option.some.inj hsome).symm, put_of_ne heq]
    · intro k hk
      have hne : k ≠ key := by
        rintro rfl
        rw [hs.fresh k hk] at h
        cases h
      exact (Function.update_of_ne hne _ _).trans (hs.fresh k hk)

theorem Shelved.destroy (hs : Shelved s) (key : ℕ) : Shelved (s.destroy key) := by
  cases h : s.mem key with
  | none =>
    rw [State.destroy_of_none h]
    exact ⟨hs.placed, hs.listed, hs.counts, hs.fresh⟩
  | some dlp =>
    rw [State.destroy_eq h]
    refine ⟨?_, ?_, fun p' hp' => hs.length_take h hp', ?_⟩
    · have htake := hs.placed.take key
      rw [place_eq h] at htake
      refine htake.congr fun k => ?_
      rw [State.place]
      by_cases hk : k = key
      · subst hk
        simp
      · simp [hk, State.place]
    · intro k dlp' hk
      dsimp only at hk
      by_cases hkey : k = key
      · subst hkey
        rw [Function.update_self] at hk
        cases hk
      · rw [Function.update_of_ne hkey] at hk
        exact hs.listed k dlp' hk
    · intro k hk
      by_cases hkey : k = key
      · subst hkey
        exact Function.update_self _ _ _
      · exact (Function.update_of_ne hkey _ _).trans (hs.fresh k hk)

/-- A cached lookup goes to the head of the cache. -/
theorem Shelved.serve (hs : Shelved s) (hkey : s.place key = some .cache) :
    Shelved { s with lists := put true key .cache (take key (some .cache) s.lists) } := by
  have htake := hs.placed.take key
  rw [hkey] at htake
  have hput := htake.put (Function.update_self key none s.place) true .cache
  have hself : Function.update s.place key (some .cache) = s.place := by
    rw [← hkey, Function.update_eq_self]
  rw [Function.update_idem, hself] at hput
  refine ⟨hput, hs.listed, ?_, hs.fresh⟩
  intro p hp
  by_cases heq : p = .cache
  · subst heq
    have hlen := hs.placed.length_take_self hkey
    dsimp only
    rw [hs.counts _ hp, length_put_self]
    omega
  · dsimp only
    rw [hs.counts p hp, put_of_ne heq, take_of_ne fun hsome => heq (Option.some.inj hsome).symm]

/-- Nothing changes about the lookups and their lists. -/
theorem Shelved.other (hs : Shelved s) (hlists : s'.lists = s.lists)
    (hcounts : s'.counts = s.counts)
    (hmem : s'.mem = s.mem) (hkeys : s'.keys = s.keys) : Shelved s' := by
  have hplace : s'.place = s.place := by
    funext k
    rw [State.place, State.place, hmem]
  refine ⟨?_, ?_, ?_, ?_⟩
  · rw [hlists, hplace]
    exact hs.placed
  · rw [hmem]
    exact hs.listed
  · rw [hlists, hcounts]
    exact hs.counts
  · rw [hmem, hkeys]
    exact hs.fresh

/-- The lookup that `dns_lookup` makes, on its list. -/
def State.made [DecidableEq F] (s : State F) (rrClass type : ℕ) (data : Bytes) (callback : F) :
    Lookup F :=
  { s.newLookup rrClass type data with
    finished := lookupEvent.addHookReally s.calls callback 0
    place := some .waiting }

theorem State.make_eq [DecidableEq F] (rrClass type : ℕ) (data : Bytes) (callback : F) :
    s.make rrClass type data callback =
      { s with
        mem := Function.update s.mem s.keys (some (s.made rrClass type data callback))
        keys := s.keys + 1
        idn := (s.idn + 1) % 2 ^ 16
        frames := .once :: s.frames
        lists := put (false || (s.lists .waiting).isEmpty) s.keys .waiting s.lists
        calls := s.calls + 1 } := by
  simp only [make, hookLookup, link, modify, Function.update_self, Option.map_some,
    Function.update_idem]
  simp [counted, made, newLookup, lookupEvent, Event.create, Event.addHookAfter, Event.full,
    Event.afterPos]

/-- A lookup is made. -/
theorem Shelved.make [DecidableEq F] (hs : Shelved s) (rrClass type : ℕ) (data : Bytes)
    (callback : F) : Shelved (s.make rrClass type data callback) := by
  rw [State.make_eq]
  have hnone : s.mem s.keys = none := hs.fresh s.keys le_rfl
  have hplace : s.place s.keys = none := by rw [State.place, hnone]; rfl
  refine ⟨?_, ?_, ?_, ?_⟩
  · refine (hs.placed.put hplace _ .waiting).congr fun k => ?_
    rw [State.place]
    by_cases hk : k = s.keys
    · subst hk
      simp [State.made]
    · simp [hk, State.place]
  · intro k dlp hk
    dsimp only at hk
    by_cases hkey : k = s.keys
    · subst hkey
      rw [Function.update_self] at hk
      cases hk
      simp [State.made]
    · rw [Function.update_of_ne hkey] at hk
      exact hs.listed k dlp hk
  · intro p hp
    dsimp only
    rw [put_of_ne hp]
    exact hs.counts p hp
  · intro k hk
    have hne : k ≠ s.keys := by
      rintro rfl
      exact absurd hk (by simp)
    exact (Function.update_of_ne hne _ _).trans (hs.fresh k ((Nat.le_succ _).trans hk))

/-! ### Changes -/

/-- Lookups that wait for an answer. -/
def Lookup.Outstanding (dlp : Lookup F) : Prop :=
  dlp.place = some .waiting ∨ dlp.place = some .pending

/-- If there is a lookup at the address, it waits for an answer. -/
def Awaited (s : State F) (key : ℕ) : Prop := ∀ dlp ∈ s.mem key, dlp.Outstanding

theorem Awaited.modify {f : Lookup F → Lookup F} (hf : ∀ dlp, (f dlp).place = dlp.place)
    (h : Awaited s key) : Awaited (s.modify k f) key := by
  intro dlp hdlp
  rw [Option.mem_def, State.modify_mem] at hdlp
  split at hdlp
  · obtain ⟨d, hd, rfl⟩ := Option.map_eq_some_iff.1 hdlp
    rw [Lookup.Outstanding, hf]
    exact h d hd
  · exact h dlp hdlp

/-- A lookup that is not in the cache waits for an answer. -/
theorem Shelved.awaited (hs : Shelved s) (h : s.mem key = some dlp)
    (hcache : dlp.place ≠ some .cache) : Awaited s key := by
  intro d hd
  cases h.symm.trans hd
  rw [Lookup.Outstanding]
  rcases hplace : dlp.place with _ | p
  · exact absurd hplace (hs.listed key dlp h)
  · cases p with
    | waiting => exact Or.inl rfl
    | pending => exact Or.inr rfl
    | cache => exact absurd hplace hcache

/-- What a step is made of. A lookup gets on a list with a limit only if `g`. -/
inductive Change (g : Prop) (s : State F) : State F → Prop
  /-- Other fields of a lookup change. -/
  | modify (key : ℕ) (f : Lookup F → Lookup F)
      (hf : ∀ dlp, (f dlp).place = dlp.place ∧ (f dlp).id = dlp.id) : Change g s (s.modify key f)
  /-- A lookup is moved; to wait again only if it has no answer yet. -/
  | move (key : ℕ) (p : Place) (head : Bool)
      (hout : p ≠ .cache → Awaited s key) (hgrow : p ≠ .waiting → g) :
      Change g s (s.move key p head)
  | destroy (key : ℕ) : Change g s (s.destroy key)
  /-- A cached lookup goes to the head of the cache. -/
  | serve (key : ℕ) (hkey : s.place key = some .cache) :
      Change g s { s with lists := put true key .cache (take key (some .cache) s.lists) }
  /-- Nothing changes about the lookups and their lists. -/
  | other (s' : State F) (hlists : s'.lists = s.lists) (hcounts : s'.counts = s.counts)
      (hmem : s'.mem = s.mem) (hkeys : s'.keys = s.keys) (hanswers : s'.answers = s.answers)
      (hgrown : s'.grown = s.grown) : Change g s s'

/-- Changes after one another. -/
inductive Changes (g : Prop) : State F → State F → Prop
  | refl (s : State F) : Changes g s s
  | head {s s' t : State F} (h : Change g s s') (rest : Changes g s' t) : Changes g s t

theorem Changes.trans (h : Changes g s s') (h' : Changes g s' t) : Changes g s t := by
  induction h with
  | refl => exact h'
  | head h _ ih => exact .head h (ih h')

theorem Change.changes (h : Change g s s') : Changes g s s' := .head h (.refl s')

/-- What every change keeps the changes keep. -/
theorem Changes.keep {I : State F → Prop} (hI : ∀ s s', I s → Change g s s' → I s')
    (h : Changes g s s') (hs : I s) : I s' := by
  induction h with
  | refl => exact hs
  | head h _ ih => exact ih (hI _ _ hs h)

theorem Shelved.change (hs : Shelved s) (h : Change g s s') : Shelved s' := by
  cases h with
  | modify key f hf => exact hs.modify fun dlp => (hf dlp).1
  | move key p head _ _ => exact hs.move key p head
  | destroy key => exact hs.destroy key
  | serve key hkey => exact hs.serve hkey
  | other s' hlists hcounts hmem hkeys _ _ => exact hs.other hlists hcounts hmem hkeys

theorem Shelved.changes (hs : Shelved s) (h : Changes g s s') : Shelved s' :=
  h.keep (fun _ _ hs h => Shelved.change hs h) hs

/-! ### Steps are changes -/

variable {env : Env}

/-- A lookup is changed in a field that does not count here. -/
theorem Changes.modify (key : ℕ) (f : Lookup F → Lookup F)
    (hf : ∀ dlp, (f dlp).place = dlp.place ∧ (f dlp).id = dlp.id) : Changes g s (s.modify key f) :=
  (Change.modify key f hf).changes

/-- A lookup is to wait again. -/
theorem Changes.wait (hout : Awaited s key) : Changes g s (s.move key .waiting true) :=
  (Change.move key .waiting true (fun _ => hout) fun h => absurd rfl h).changes

/-- Nothing changes about the lookups and their lists. -/
theorem Changes.other (hlists : s'.lists = s.lists) (hcounts : s'.counts = s.counts)
    (hmem : s'.mem = s.mem) (hkeys : s'.keys = s.keys) (hanswers : s'.answers = s.answers)
    (hgrown : s'.grown = s.grown) : Changes g s s' :=
  (Change.other s' hlists hcounts hmem hkeys hanswers hgrown).changes

theorem changes_frames (frames : List Frame) : Changes g s { s with frames := frames } :=
  .other rfl rfl rfl rfl rfl rfl

theorem changes_push (frame : Frame) : Changes g s (s.push frame) :=
  .other rfl rfl rfl rfl rfl rfl

theorem changes_freeTimer (dlp : Lookup F) : Changes g s (s.freeTimer dlp) := by
  rw [State.freeTimer]
  split
  · exact .refl s
  · exact .other rfl rfl rfl rfl rfl rfl

theorem changes_startTimer {interval : ℤ} (h : s.startTimer key interval = some s') :
    Changes g s s' := by
  obtain ⟨⟨q, ref⟩, -, rfl⟩ := Option.map_eq_some_iff.1 h
  have hq : Changes g s { s with q := q } := .other rfl rfl rfl rfl rfl rfl
  refine hq.trans (.modify key _ ?_)
  exact fun dlp => ⟨rfl, rfl⟩

theorem changes_evict : Changes g s s.evict := by
  rw [State.evict]
  split
  · split
    · exact .other rfl rfl rfl rfl rfl rfl
    · exact (Change.destroy _).changes
  · exact .refl s

theorem changes_toCache (key : ℕ) (dlp : Lookup F) : Changes True s (s.toCache key dlp) := by
  rw [State.toCache]
  split
  · split
    · exact changes_evict.trans
        (Change.move key .cache true (fun h => absurd rfl h) fun _ => trivial).changes
    · exact changes_evict
  · exact .refl s

theorem changes_keep (h : s.keep key = some s') : Changes g s s' := by
  rw [State.keep] at h
  split at h
  · cases h
    exact .other rfl rfl rfl rfl rfl rfl
  · split at h
    · cases h
      exact (Change.destroy key).changes
    · split at h
      · exact changes_startTimer h
      · cases h
        exact .other rfl rfl rfl rfl rfl rfl

theorem changes_settle (h : s.settle key = some s') : Changes True s s' := by
  rw [State.settle] at h
  split at h
  · cases h
    exact .other rfl rfl rfl rfl rfl rfl
  · exact (changes_toCache key _).trans (changes_keep h)

theorem changes_goOn {nc : Bool} {hooks : List (Hook F)} : Changes g s (s.goOn key nc hooks) := by
  rw [State.goOn]
  split
  · refine Changes.trans (.modify key _ ?_) (changes_push _)
    exact fun dlp => ⟨rfl, rfl⟩
  · exact .other rfl rfl rfl rfl rfl rfl

theorem changes_finish (h : s.finish key = some s') : Changes g s s' := by
  rw [State.finish] at h
  split at h
  · cases h
    exact .other rfl rfl rfl rfl rfl rfl
  · obtain ⟨ttl, -, rfl⟩ := Option.map_eq_some_iff.1 h
    refine Changes.trans (.modify key _ ?_) changes_goOn
    exact fun dlp => ⟨rfl, rfl⟩

theorem changes_fail {more : Bool} (h : s.fail key = some (s', more)) : Changes g s s' := by
  obtain ⟨t, ht, h⟩ := Option.map_eq_some_iff.1 h
  cases h
  refine Changes.trans (.modify key _ ?_) (changes_finish ht)
  exact fun dlp => ⟨rfl, rfl⟩

theorem changes_request {wrote more : Bool} {junk : ℤ} (hout : Awaited s key)
    (h : s.request env key dlp wrote junk = some (s', more)) : Changes g s s' := by
  rw [State.request] at h
  split at h
  · exact changes_fail h
  · rename_i name hname
    have hnamed : Changes g s (s.modify key Lookup.named) := .modify key _ named_place
    refine hnamed.trans ?_
    dsimp only at h
    split at h
    · exact changes_fail h
    · split at h
      · obtain ⟨t, ht, h⟩ := Option.map_eq_some_iff.1 h
        cases h
        refine (changes_freeTimer dlp).trans
          (Changes.trans (.modify key _ ?_) (changes_startTimer ht))
        exact fun dlp => ⟨rfl, rfl⟩
      · cases h
        exact .wait (hout.modify fun d => (named_place d).1)

theorem changes_send (hs : Shelved s) {wrote more : Bool} {junk : ℤ}
    (h : s.send env wrote junk = some (s', more)) : Changes True s s' := by
  rw [State.send] at h
  split at h
  · cases h
    exact .refl s
  · split at h
    · cases h
      exact .refl s
    · rename_i key rest hlist
      split at h
      · cases h
        exact .other rfl rfl rfl rfl rfl rfl
      · rename_i dlp hdlp
        have hwaiting : dlp.place = some .waiting := by
          rw [← place_eq hdlp]
          exact ((hs.placed .waiting).2 key).1 (by rw [hlist]; exact List.mem_cons_self)
        refine (Change.move key .pending false (fun _ d hd => ?_) fun _ => trivial).changes.trans
          (changes_request (fun d hd => ?_) h)
        · cases hdlp.symm.trans hd
          exact Or.inl hwaiting
        · rw [State.move_eq hdlp] at hd
          dsimp only at hd
          rw [Function.update_self] at hd
          cases hd
          exact Or.inr rfl

/-- A function that makes changes makes them on every element of a list. -/
theorem changes_foldl {f : State F → ℕ → State F} (hf : ∀ s key, Changes g s (f s key))
    (l : List ℕ) (s : State F) : Changes g s (l.foldl f s) := by
  induction l generalizing s with
  | nil => exact .refl s
  | cons key l ih => exact (hf s key).trans (ih (f s key))

/-- May a reply be matched with this lookup? -/
def State.Matchable (s : State F) (dlp : Lookup F) : Prop :=
  dlp.place = some .pending ∨ dlp.place = some .waiting ∧ dlp.retry < s.retries

theorem State.Matchable.outstanding (h : s.Matchable dlp) : dlp.Outstanding :=
  h.symm.imp_left And.left

/-- Look for a lookup on one list. -/
theorem Shelved.find_eq_some (hs : Shelved s) {q : Lookup F → Bool}
    (h : (s.lists p).find? (fun key => (s.mem key).any q) = some key) :
    ∃ dlp, s.mem key = some dlp ∧ q dlp ∧ dlp.place = some p := by
  have hany : (s.mem key).any q = true := List.find?_some (p := fun key => (s.mem key).any q) h
  obtain ⟨dlp, hdlp, hq⟩ := (Option.any_eq_true _ _).1 hany
  have hplace := ((hs.placed p).2 key).1 (List.mem_of_find?_eq_some h)
  exact ⟨dlp, hdlp, hq, (place_eq hdlp).symm.trans hplace⟩

theorem Shelved.find_ne_none (hs : Shelved s) {q : Lookup F → Bool} (hdlp : s.mem k = some dlp)
    (hplace : dlp.place = some p) (hq : q dlp) :
    (s.lists p).find? (fun key => (s.mem key).any q) ≠ none := by
  intro h
  have hmem : k ∈ s.lists p := ((hs.placed p).2 k).2 ((place_eq hdlp).trans hplace)
  have hany := List.find?_eq_none.1 h k hmem
  rw [hdlp] at hany
  exact hany hq

theorem Shelved.matched (hs : Shelved s) {id : ℕ} (h : s.matched id = some key) :
    ∃ dlp, s.mem key = some dlp ∧ dlp.id = id ∧ s.Matchable dlp := by
  rw [State.matched] at h
  rcases Option.or_eq_some_iff.1 h with h | ⟨-, h⟩
  · obtain ⟨dlp, hdlp, hid, hplace⟩ := hs.find_eq_some (q := fun dlp => dlp.id = id) h
    exact ⟨dlp, hdlp, of_decide_eq_true hid, Or.inl hplace⟩
  · obtain ⟨dlp, hdlp, hid, hplace⟩ :=
      hs.find_eq_some (q := fun dlp => dlp.id = id ∧ dlp.retry < s.retries) h
    obtain ⟨hid, hretry⟩ := of_decide_eq_true hid
    exact ⟨dlp, hdlp, hid, Or.inr ⟨hplace, hretry⟩⟩

/-- A lookup that a reply may be matched with is not passed over. -/
theorem Shelved.matched_ne_none (hs : Shelved s) (hdlp : s.mem k = some dlp)
    (h : s.Matchable dlp) : s.matched dlp.id ≠ none := by
  rw [State.matched, Ne, Option.or_eq_none_iff]
  rintro ⟨hpending, hwaiting⟩
  rcases h with hplace | ⟨hplace, hretry⟩
  · exact hs.find_ne_none (q := fun d => d.id = dlp.id) hdlp hplace (decide_eq_true rfl) hpending
  · exact hs.find_ne_none (q := fun d => d.id = dlp.id ∧ d.retry < s.retries) hdlp hplace
      (decide_eq_true ⟨rfl, hretry⟩) hwaiting

theorem Shelved.answered (hs : Shelved s) (pkt : Bytes) (id : ℕ) :
    Shelved (s.answered env pkt id dlp) :=
  ⟨hs.placed, hs.listed, hs.counts, hs.fresh⟩

/-- Does a reply of this kind finish the lookup? -/
def Reply.settles : Reply → Bool
  | .ignored | .again => false
  | .failed | .answered .. => true

theorem changes_replied {pkt : Bytes} {id : ℕ} {r : Reply} (hout : Awaited s key)
    (h : s.replied env pkt id key dlp r = some s') :
    Changes g (if r.settles then s.answered env pkt id dlp else s) s' := by
  cases r with
  | ignored =>
    cases h
    exact .refl s
  | failed =>
    refine Changes.trans (.modify key _ ?_) (changes_finish h)
    exact fun dlp => ⟨rfl, rfl⟩
  | again =>
    cases h
    refine Changes.trans (.modify key _ ?_)
      (.wait (hout.modify ?_))
    · exact fun dlp => ⟨rfl, rfl⟩
    · exact fun dlp => rfl
  | answered nxdomain an ns ad =>
    refine Changes.trans (.modify key _ ?_) (changes_finish h)
    exact fun dlp => ⟨rfl, rfl⟩

/-- A reply that settles a lookup settles the one it is matched with. -/
theorem changes_reply (hs : Shelved s) {pkt : Bytes} (h : s.reply env pkt = some s') :
    ∃ o, packetParse env.expand env.below (fun id => (s.matched id).isSome) pkt = some o ∧
      ((∀ m ∈ o, s.matched m.1 ≠ none → m.2.settles = false) ∧ Changes g s s' ∨
        ∃ id r key dlp, o = some (id, r) ∧ r.settles ∧ s.matched id = some key ∧
          s.mem key = some dlp ∧ Changes g (s.answered env pkt id dlp) s') := by
  rw [State.reply, Option.bind_eq_bind, Option.bind_eq_some_iff] at h
  obtain ⟨o, ho, h⟩ := h
  refine ⟨o, ho, ?_⟩
  rcases o with _ | ⟨id, r⟩
  · cases h
    exact Or.inl ⟨nofun, .refl s⟩
  · dsimp only at h
    split at h
    · rename_i hmatched
      cases h
      refine Or.inl ⟨?_, .refl s⟩
      rintro m ⟨⟩ hm
      exact absurd hmatched hm
    · rename_i key hmatched
      obtain ⟨dlp, hdlp, -, hout⟩ := hs.matched hmatched
      rw [hdlp] at h
      have hreplied := changes_replied (g := g)
        (fun d hd => by cases hdlp.symm.trans hd; exact hout.outstanding) h
      by_cases hr : r.settles = true
      · rw [if_pos hr] at hreplied
        exact Or.inr ⟨id, r, key, dlp, rfl, hr, hmatched, hdlp, hreplied⟩
      · rw [if_neg hr] at hreplied
        refine Or.inl ⟨?_, hreplied⟩
        rintro m ⟨⟩ -
        exact eq_false_of_ne_true hr

theorem changes_timedOut (hout : Awaited s key) (h : s.timedOut key dlp = some s') :
    Changes g s s' := by
  rw [State.timedOut] at h
  split at h
  · refine Changes.trans (.modify key _ ?_) (changes_finish h)
    exact fun dlp => ⟨rfl, rfl⟩
  · cases h
    refine Changes.trans (.modify key _ ?_)
      (.wait (hout.modify ?_))
    · exact fun dlp => ⟨rfl, rfl⟩
    · exact fun dlp => rfl

theorem changes_timerHook (hs : Shelved s) (h : s.timerHook key = some s') : Changes g s s' := by
  rw [State.timerHook] at h
  split at h
  · cases h
    exact .other rfl rfl rfl rfl rfl rfl
  · rename_i dlp hdlp
    have htimer : Changes g s (s.modify key fun dlp => { dlp with timer := Timers.timerInvalid }) :=
      .modify key _ fun dlp => ⟨rfl, rfl⟩
    refine htimer.trans ?_
    dsimp only at h
    split at h
    · cases h
      exact (Change.destroy key).changes
    · rename_i hplace
      have hawaited : Awaited (s.modify key fun dlp => { dlp with timer := Timers.timerInvalid })
          key := (hs.awaited hdlp hplace).modify fun dlp => rfl
      exact (changes_push .sending).trans (changes_timedOut hawaited h)

theorem changes_tick (hs : Shelved s) {ref : ℕ} (h : s.tick ref = some s') : Changes g s s' := by
  rw [State.tick] at h
  split at h
  · cases h
  · split at h
    · have hq : Changes g s { s with q := s.q.destroyTimer ref } := .other rfl rfl rfl rfl rfl rfl
      exact hq.trans (changes_timerHook (hs.changes hq) h)
    · cases h

theorem changes_reload (conf : Conf) (sock : Bool) : Changes g s (s.reload conf sock) := by
  have hconf : Changes g s (s.configure conf) := .other rfl rfl rfl rfl rfl rfl
  rw [State.reload]
  split
  · exact hconf.trans (changes_foldl (fun s key => (Change.destroy key).changes) _ _)
  · exact hconf

/-- A callback returns. -/
theorem changes_ret {cur : ℕ} {nc : Bool} {rest : List Frame} :
    Changes g s (s.ret key cur nc rest) := by
  rw [State.ret]
  split
  · exact .other rfl rfl rfl rfl rfl rfl
  · split
    · exact (changes_frames rest).trans changes_goOn
    · exact .other rfl rfl rfl rfl rfl rfl

/-! ### Calls -/

variable [DecidableEq F]

theorem changes_unhook (key : ℕ) (callback : F) : Changes g s (s.unhook key callback) := by
  rw [State.unhook]
  split
  · exact .refl s
  · refine Changes.trans (.modify key _ ?_) (.other rfl rfl rfl rfl rfl rfl)
    exact fun dlp => ⟨rfl, rfl⟩

theorem changes_cancelWaiting (callback : F) (s : State F) (key : ℕ) :
    Changes g s (s.cancelWaiting callback key) := by
  rw [State.cancelWaiting]
  refine (changes_unhook key callback).trans ?_
  split
  · exact .other rfl rfl rfl rfl rfl rfl
  · split
    · exact (Change.destroy key).changes
    · exact .refl _

theorem changes_cancel (callback : F) : Changes g s (s.cancel callback) := by
  rw [State.cancel]
  refine (changes_foldl (fun s key => ?_) _ s).trans (changes_foldl (fun s key => ?_) _ _)
  · exact changes_unhook key callback
  · exact changes_cancelWaiting callback s key

theorem changes_hookLookup (key : ℕ) (callback : F) : Changes g s (s.hookLookup key callback) := by
  rw [State.hookLookup]
  refine Changes.trans (.modify key _ ?_) (.other rfl rfl rfl rfl rfl rfl)
  exact fun dlp => ⟨rfl, rfl⟩

theorem lookup_eq_make {rrClass type : ℕ} {data : Bytes} (callback : F)
    (hlen : data.length ≤ maxNamelen) (hfind : s.findLookup rrClass type data = none) :
    s.lookup rrClass type data callback = s.make rrClass type data callback := by
  rw [State.lookup, if_neg (not_lt.2 hlen), hfind]

theorem changes_lookup {rrClass type : ℕ} {data : Bytes} (callback : F)
    (h : ¬ (data.length ≤ maxNamelen ∧ s.findLookup rrClass type data = none)) :
    Changes g s (s.lookup rrClass type data callback) := by
  rw [State.lookup]
  split
  · exact .refl s
  · rename_i hlen
    split
    · rename_i hfind
      exact absurd ⟨not_lt.1 hlen, hfind⟩ h
    · rename_i key hkey
      split
      · rename_i hcache
        obtain ⟨dlp, hdlp, hplace⟩ := (Option.any_eq_true _ _).1 hcache
        have hserve := Change.serve (g := g) key ((place_eq hdlp).trans (of_decide_eq_true hplace))
        exact hserve.changes.trans (.other rfl rfl rfl rfl rfl rfl)
      · exact changes_hookLookup key callback

/-! ### Runs -/

/-- A step makes changes, unless it makes a lookup or takes a reply. -/
theorem changes_step (hs : Shelved s) {a : Action F} (h : Stepped env s a s')
    (hlookup : ∀ rrClass type data callback, a ≠ .lookup rrClass type data callback)
    (hreply : ∀ pkt, a ≠ .reply pkt) : Changes True s s' := by
  cases h with
  | lookup rrClass type data callback _ => exact absurd rfl (hlookup rrClass type data callback)
  | cancel callback _ => exact changes_cancel callback
  | @once rest _ wrote junk _ more h =>
    exact (changes_frames rest).trans (changes_send (hs.other rfl rfl rfl rfl) h)
  | more _ wrote junk _ h => exact changes_send hs h
  | @last rest _ wrote junk _ h => exact (changes_send hs h).trans (changes_frames rest)
  | ret _ => exact changes_ret
  | @served rest _ => exact changes_frames rest
  | @settle key rest _ _ h => exact (changes_frames rest).trans (changes_settle h)
  | poll _ => exact changes_push _
  | reply _ pkt _ h => exact absurd rfl (hreply pkt)
  | tick _ ref _ h => exact changes_tick hs h
  | reload _ conf sock => exact changes_reload conf sock
  | clock _ now => exact .other rfl rfl rfl rfl rfl rfl

/-- Every step keeps the lists right. -/
theorem Shelved.step (hs : Shelved s) {a : Action F} (h : Stepped env s a s') : Shelved s' := by
  cases a with
  | lookup rrClass type data callback =>
    cases h with
    | lookup _ _ _ _ _ =>
      by_cases hnew : data.length ≤ maxNamelen ∧ s.findLookup rrClass type data = none
      · rw [lookup_eq_make callback hnew.1 hnew.2]
        exact hs.make rrClass type data callback
      · exact hs.changes (g := True) (changes_lookup callback hnew)
  | reply pkt =>
    cases h with
    | reply _ _ _ h =>
      obtain ⟨o, -, ⟨-, h⟩ | ⟨id, r, key, dlp, -, -, -, -, h⟩⟩ := changes_reply (g := True) hs h
      · exact hs.changes h
      · exact (hs.answered pkt id).changes h
  | _ => exact hs.changes (changes_step hs h nofun nofun)

/-- In every run every lookup is on the list of its flag and on no other, and the counts are
right. -/
theorem shelved_of_run {now : ℤ} {as : List (Action F)}
    (hrun : Run.run (step env) (start now) as = some s) : Shelved s :=
  Run.run_induction (I := fun _ s => Shelved s) (shelved_start now)
    (fun _ _ _ _ hs h => hs.step (stepped h).2) hrun

end Dns

end Ithildin
