import Ithildin.Address

/-!
# The hash key of a host

* `hashTail`, `getAclHash`: `get_acl_hash` of `acl.c`;
* `HostMap`: `ircd.maps.host`, and what makes one fit for keys;
* `getAclHash_of_hostmatch`: a mask with a key matches only hosts with the same key.
-/

namespace Ithildin

/-- A character map, as `istr_okay` reads it: the bytes it admits. -/
abbrev HostMap := UInt8 → Bool

/-- `ircd.maps.host` as the server sets it up: `"A-Z0-9.- a-z"`. -/
def hostMap : HostMap := fun c => isAlpha c || isDigit c || c == dot || c == 45

/-- `ACL_HASHLEN`. -/
def ACL_HASHLEN : ℕ := 20

/-- `ACL_DEFAULT_HASH`. -/
def ACL_DEFAULT_HASH : UInt32 := 0

/-- The walk of `get_acl_hash` from the last byte back, over the reversed host: `n` more steps, and
this many dots behind it.  It stops at the second dot, which is left out, or at the first byte. -/
def hashWalk : ℕ → ℕ → Bytes → Bytes
  | _, _, [] => []
  | _, _, [c] => [c]
  | 0, _, c :: _ => [c]
  | n + 1, dots, c :: d :: r =>
      if c = dot then
        if 0 < dots then [] else c :: hashWalk n (dots + 1) (d :: r)
      else c :: hashWalk n dots (d :: r)

/-- The end of a host that is hashed. -/
def hashTail (host : Bytes) : Bytes := (hashWalk ACL_HASHLEN 0 host.reverse).reverse

/-- `hash = hash * 33 + tolower(*s++)` over the text, and the last shift. -/
def hashText (s : Bytes) : UInt32 :=
  let hash := s.foldl (fun h c => h * 33 + (toLower c).toUInt32) 0
  hash + (hash >>> 5)

/-- `get_acl_hash`. -/
def getAclHash (okay : HostMap) (host : Bytes) : UInt32 :=
  let s := hashTail host
  if s.length < 5 ∨ ¬ s.all okay then ACL_DEFAULT_HASH else hashText s

/-- A map fit for keys: no byte that means something in a mask is in it, and it does not tell bytes
apart that the matcher takes for the same. -/
structure HostMap.Fit (okay : HostMap) : Prop where
  literal : ∀ c, okay c = true → Literal [c]
  folded : ∀ c d, toUpper c = toUpper d → okay c = okay d

/-- The three maps of bytes on each other. -/
theorem maps_agree : ∀ c, (toUpper c = toUpper dot → c = dot) ∧ toLower (toUpper c) = toLower c ∧
    hostMap (toUpper c) = hostMap c ∧ (hostMap c = true → Literal [c]) := by
  refine forall_byte ?_
  simp only [Literal, List.mem_singleton, forall_eq]
  decide +kernel

theorem eq_dot_of_toUpper (c : UInt8) (h : toUpper c = toUpper dot) : c = dot :=
  (maps_agree c).1 h

theorem toLower_toUpper (c : UInt8) : toLower (toUpper c) = toLower c := (maps_agree c).2.1

theorem hostMap_toUpper (c : UInt8) : hostMap (toUpper c) = hostMap c := (maps_agree c).2.2.1

/-- The map of the server is fit for keys. -/
theorem hostMap_fit : hostMap.Fit where
  literal c := (maps_agree c).2.2.2
  folded := by
    intro c d h
    rw [← hostMap_toUpper c, h, hostMap_toUpper d]

/-! ### Hosts that end alike have the same key -/

/-- What the walk looks at: the end that is hashed, and the dot that stopped it. -/
def hashRead : ℕ → ℕ → Bytes → Bytes
  | _, _, [] => []
  | _, _, [c] => [c]
  | 0, _, c :: _ => [c]
  | n + 1, dots, c :: d :: r =>
      if c = dot then
        if 0 < dots then [c] else c :: hashRead n (dots + 1) (d :: r)
      else c :: hashRead n dots (d :: r)

theorem hashRead_isPrefix (n dots : ℕ) (m : Bytes) : hashRead n dots m <+: m := by
  fun_induction hashRead n dots m with
  | case1 => exact List.prefix_refl _
  | case2 => exact List.prefix_refl _
  | case3 => simp
  | case4 => simp
  | case5 n dots d r _ ih => exact (List.prefix_cons_inj _).2 ih
  | case6 n dots c d r _ ih => exact (List.prefix_cons_inj _).2 ih

theorem hashRead_ne_nil (n dots : ℕ) (c : UInt8) (m : Bytes) : hashRead n dots (c :: m) ≠ [] := by
  cases m with
  | nil => simp [hashRead]
  | cons d r =>
    cases n with
    | zero => simp [hashRead]
    | succ n =>
      rw [hashRead]
      split
      · split <;> simp
      · simp

/-- The walk reads what it keeps, and one dot more when a dot stops it. -/
theorem hashRead_eq (n dots : ℕ) (m : Bytes) :
    hashRead n dots m = hashWalk n dots m ∨ hashRead n dots m = hashWalk n dots m ++ [dot] := by
  fun_induction hashRead n dots m with
  | case1 => exact .inl (by simp [hashWalk])
  | case2 => exact .inl (by simp [hashWalk])
  | case3 => exact .inl (by simp [hashWalk])
  | case4 n dots d r hdots => exact .inr (by simp [hashWalk, hdots])
  | case5 n dots d r hdots ih => simpa [hashWalk, hdots] using ih
  | case6 n dots c d r hc ih => simpa [hashWalk, hc] using ih

theorem exists_cons_of_map {u t : Bytes} {c : UInt8} (h : u.map toUpper = (c :: t).map toUpper) :
    ∃ c' t', u = c' :: t' ∧ toUpper c' = toUpper c ∧ t'.map toUpper = t.map toUpper := by
  cases u with
  | nil => simp at h
  | cons c' t' =>
    rw [List.map_cons, List.map_cons, List.cons.injEq] at h
    exact ⟨c', t', rfl, h.1, h.2⟩

theorem hashWalk_cons (n dots : ℕ) (c : UInt8) {s : Bytes} (h : s ≠ []) :
    hashWalk (n + 1) dots (c :: s) =
      if c = dot then if 0 < dots then [] else c :: hashWalk n (dots + 1) s
      else c :: hashWalk n dots s := by
  cases s with
  | nil => exact absurd rfl h
  | cons d r => rw [hashWalk]

/-- A reversed host that begins as what the walk over `m` read, up to case, is walked alike: not
beyond it when that was all of `m`, and never stopped by its own end when that is no dot. -/
theorem hashWalk_of_read {n dots : ℕ} {m u r : Bytes}
    (hu : u.map toUpper = (hashRead n dots m).map toUpper) (hall : hashRead n dots m = m → r = [])
    (hlast : (u ++ r).getLast? ≠ some dot) :
    hashWalk n dots (u ++ r) = u.take (hashWalk n dots m).length := by
  fun_induction hashRead n dots m generalizing u with
  | case1 n dots =>
    obtain rfl : u = [] := by simpa using hu
    rw [hall rfl]
    simp [hashWalk]
  | case2 n dots c =>
    obtain ⟨c', t, rfl, -, ht⟩ := exists_cons_of_map hu
    obtain rfl : t = [] := by simpa using ht
    rw [hall rfl]
    simp [hashWalk]
  | case3 dots c d s =>
    obtain ⟨c', t, rfl, -, ht⟩ := exists_cons_of_map hu
    obtain rfl : t = [] := by simpa using ht
    cases r <;> simp [hashWalk]
  | case4 n dots d s hdots =>
    obtain ⟨c', t, rfl, hc, ht⟩ := exists_cons_of_map hu
    obtain rfl : t = [] := by simpa using ht
    obtain rfl := eq_dot_of_toUpper c' hc
    -- the dot is not the host's first byte
    have hr : r ≠ [] := by
      rintro rfl
      exact hlast rfl
    rw [List.singleton_append, hashWalk_cons n dots dot hr, hashWalk_cons n dots dot (by simp)]
    simp [hdots]
  | case5 n dots d s hdots ih =>
    obtain ⟨c', t, rfl, hc, ht⟩ := exists_cons_of_map hu
    obtain rfl := eq_dot_of_toUpper c' hc
    have hrest : t ++ r ≠ [] := by
      intro hnil
      rw [(List.append_eq_nil_iff.1 hnil).1] at ht
      exact hashRead_ne_nil _ _ _ _ (List.map_eq_nil_iff.1 ht.symm)
    have hlast' : (t ++ r).getLast? ≠ some dot := by
      rwa [List.cons_append, List.getLast?_cons_of_ne_nil hrest] at hlast
    have htail := ih ht (fun heq => hall (by rw [heq])) hlast'
    rw [List.cons_append, hashWalk_cons n dots dot hrest, hashWalk_cons n dots dot (by simp), htail]
    simp [hdots]
  | case6 n dots c d s hc ih =>
    obtain ⟨c', t, rfl, hc', ht⟩ := exists_cons_of_map hu
    have hcdot : c' ≠ dot := by
      rintro rfl
      exact hc (eq_dot_of_toUpper c hc'.symm)
    have hrest : t ++ r ≠ [] := by
      intro hnil
      rw [(List.append_eq_nil_iff.1 hnil).1] at ht
      exact hashRead_ne_nil _ _ _ _ (List.map_eq_nil_iff.1 ht.symm)
    have hlast' : (t ++ r).getLast? ≠ some dot := by
      rwa [List.cons_append, List.getLast?_cons_of_ne_nil hrest] at hlast
    have htail := ih ht (fun heq => hall (by rw [heq])) hlast'
    rw [List.cons_append, hashWalk_cons n dots c' hrest, hashWalk_cons n dots c (by simp), htail]
    simp [hc, hcdot]

theorem all_congr {okay : HostMap} (hfit : okay.Fit) {s t : Bytes}
    (h : s.map toUpper = t.map toUpper) : s.all okay = t.all okay := by
  induction t generalizing s with
  | nil =>
    obtain rfl : s = [] := by simpa using h
    rfl
  | cons c t ih =>
    obtain ⟨c', s, rfl, hc, hs⟩ := exists_cons_of_map h
    rw [List.all_cons, List.all_cons, hfit.folded c' c hc, ih hs]

theorem hashText_congr {s t : Bytes} (h : s.map toUpper = t.map toUpper) :
    hashText s = hashText t := by
  have hlower : s.map toLower = t.map toLower := by
    have hcomp := congrArg (List.map toLower) h
    simpa [Function.comp_def, toLower_toUpper] using hcomp
  have hfold : ∀ u : Bytes, u.foldl (fun h c => h * 33 + (toLower c).toUInt32) 0 =
      (u.map toLower).foldl (fun h c => h * 33 + c.toUInt32) (0 : UInt32) := by
    intro u
    rw [List.foldl_map]
  rw [hashText, hashText, hfold s, hfold t, hlower]

/-- Hosts whose hashed ends differ in case only have one key. -/
theorem getAclHash_congr {okay : HostMap} (hfit : okay.Fit) {s t : Bytes}
    (h : (hashTail s).map toUpper = (hashTail t).map toUpper) :
    getAclHash okay s = getAclHash okay t := by
  have hlen : (hashTail s).length = (hashTail t).length := by
    simpa using congrArg List.length h
  rw [getAclHash, getAclHash, hlen, all_congr hfit h, hashText_congr h]

theorem literal_hashRead {okay : HostMap} (hfit : okay.Fit) {n dots : ℕ} {m : Bytes}
    (h : (hashWalk n dots m).all okay = true) : Literal (hashRead n dots m) := by
  have hwalk : ∀ c ∈ hashWalk n dots m, Literal [c] :=
    fun c hc => hfit.literal c (List.all_eq_true.1 h c hc)
  intro c hc
  rcases hashRead_eq n dots m with heq | heq
  · rw [heq] at hc
    exact hwalk c hc c (by simp)
  · rw [heq, List.mem_append, List.mem_singleton] at hc
    rcases hc with hc | rfl
    · exact hwalk c hc c (by simp)
    · decide

/-- A host ends in what `get_acl_hash` reads of a mask that matches it, and is read alike. -/
theorem hashTail_of_hostmatch {mask host : Bytes} (h : hostmatch mask host = true)
    (hlit : Literal (hashRead ACL_HASHLEN 0 mask.reverse)) (hstar : host ≠ [star])
    (hdot : host.head? ≠ some dot) :
    (hashTail host).map toUpper = (hashTail mask).map toUpper := by
  set read := hashRead ACL_HASHLEN 0 mask.reverse with hread
  have hlit' : Literal read.reverse := fun c hc => hlit c (List.mem_reverse.1 hc)
  have hsuffix : read.reverse <:+ mask := by
    have hpre := List.reverse_suffix.2 (hashRead_isPrefix ACL_HASHLEN 0 mask.reverse)
    rwa [List.reverse_reverse] at hpre
  -- split the host behind what corresponds to the text that was read
  have hsplit : ∃ u r, host.reverse = u ++ r ∧ u.map toUpper = read.map toUpper ∧
      (read = mask.reverse → r = []) := by
    obtain ⟨⟨t, ⟨front, rfl⟩, ht⟩, hwhole⟩ := hostmatch_suffix h hstar hlit' hsuffix
    by_cases hall : read = mask.reverse
    · have hmask : mask = read.reverse := by rw [hall, List.reverse_reverse]
      refine ⟨(front ++ t).reverse, [], by simp, ?_, fun _ => rfl⟩
      rw [List.map_reverse, hwhole hmask, ← List.map_reverse, List.reverse_reverse]
    · refine ⟨t.reverse, front.reverse, by simp, ?_, fun heq => absurd heq hall⟩
      rw [List.map_reverse, ht, ← List.map_reverse, List.reverse_reverse]
  obtain ⟨u, r, hhost, hu, hall⟩ := hsplit
  have hlast : (u ++ r).getLast? ≠ some dot := by
    rwa [← hhost, List.getLast?_reverse]
  have hwalk := hashWalk_of_read hu hall hlast
  have htake : (u.take (hashWalk ACL_HASHLEN 0 mask.reverse).length).map toUpper =
      (hashWalk ACL_HASHLEN 0 mask.reverse).map toUpper := by
    rw [List.map_take, hu, ← List.map_take]
    rcases hashRead_eq ACL_HASHLEN 0 mask.reverse with heq | heq
    · rw [hread, heq, List.take_length]
    · rw [hread, heq, List.take_left]
  rw [hashTail, hashTail, hhost, hwalk, List.map_reverse, htake, List.map_reverse]

/-- A mask with a key matches only hosts with the same key. -/
theorem getAclHash_of_hostmatch {okay : HostMap} (hfit : okay.Fit) {mask host : Bytes}
    (hkey : getAclHash okay mask ≠ ACL_DEFAULT_HASH) (h : hostmatch mask host = true)
    (hstar : host ≠ [star]) (hdot : host.head? ≠ some dot) :
    getAclHash okay host = getAclHash okay mask := by
  have hokay : (hashTail mask).all okay = true := by
    by_contra hbad
    simp [getAclHash, hbad] at hkey
  rw [hashTail, List.all_reverse] at hokay
  exact getAclHash_congr hfit (hashTail_of_hostmatch h (literal_hashRead hfit hokay) hstar hdot)

end Ithildin
