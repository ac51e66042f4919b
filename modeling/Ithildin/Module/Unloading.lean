import Ithildin.Module.Loading

/-!
# What an unload keeps

While a module is being unloaded its flag is cleared although it is on lists still, and others are
on its own. `Unloading` says what holds meanwhile, where `t` tells which modules these are, and `U`
which ones are to be unloaded.

* `Dropped`: from one state to another, modules have been unloaded, and nothing else;
* `Unloading.unloadModule`: an unload keeps what holds on the way, and unloads the module after what
  depends on it.
-/

namespace Ithildin

namespace Modules

variable {M : Type} [DecidableEq M] {D : M → List M} {s s' s'' : Modules M} {m x y : M} {n : ℕ}

/-! ### Modules that are dropped -/

/-- The modules of `seg` have been unloaded, in that order. -/
structure Dropped (s s' : Modules M) (seg : List M) : Prop where
  names : s'.names = s.names
  reloading : s'.reloading = s.reloading
  fresh : s'.fresh = s.fresh
  closed : s'.closed = s.closed ++ seg
  lists : ∀ y, (s'.dependants y).Sublist (s.dependants y)
  mono : ∀ x, s'.loaded x = true → s.loaded x = true
  gone : ∀ x, s.loaded x = true → s'.loaded x = false → x ∈ seg

omit [DecidableEq M] in
theorem Dropped.refl (s : Modules M) : Dropped s s [] where
  names := rfl
  reloading := rfl
  fresh := rfl
  closed := (List.append_nil _).symm
  lists _ := .refl _
  mono _ hx := hx
  gone x hx hx' := by
    rw [hx] at hx'
    cases hx'

omit [DecidableEq M] in
theorem Dropped.trans {seg seg' : List M} (h : Dropped s s' seg) (h' : Dropped s' s'' seg') :
    Dropped s s'' (seg ++ seg') where
  names := h'.names.trans h.names
  reloading := h'.reloading.trans h.reloading
  fresh := h'.fresh.trans h.fresh
  closed := by rw [h'.closed, h.closed, List.append_assoc]
  lists y := (h'.lists y).trans (h.lists y)
  mono x hx := h.mono x (h'.mono x hx)
  gone x hx hx'' := by
    rw [List.mem_append]
    by_cases hx' : s'.loaded x = true
    · exact .inr (h'.gone x hx' hx'')
    · exact .inl (h.gone x hx (Bool.eq_false_iff.mpr hx'))

theorem Dropped.links_le {seg : List M} (h : Dropped s s' seg) (x y : M) :
    s'.links x y ≤ s.links x y :=
  ((h.lists y).map Prod.snd).count_le x

theorem Dropped.freeDependant (s : Modules M) (m : M) (mdep : ℕ) :
    Dropped s (s.freeDependant m mdep) [] :=
  { Dropped.refl s with
    lists := fun y => by
      dsimp only [Modules.freeDependant]
      by_cases hy : y = m
      · subst hy
        rw [Function.update_self]
        exact List.filter_sublist
      · rw [Function.update_of_ne hy] }

theorem Dropped.dropDependant (s : Modules M) (m : M) : Dropped s (s.dropDependant m) [] :=
  { Dropped.refl s with lists := fun _ => List.filter_sublist }

theorem links_dropDependant (s : Modules M) (m x y : M) :
    (s.dropDependant m).links x y = if x = m then 0 else s.links x y := by
  rw [links, links, dropDependant]
  dsimp only
  induction s.dependants y with
  | nil => simp
  | cons e l ih =>
    rw [List.filter_cons, List.map_cons, List.count_cons]
    by_cases he : e.2 = m
    · rw [if_neg (by simp [he]), ih, he]
      by_cases hx : x = m
      · rw [if_pos hx, if_pos hx]
      · rw [if_neg hx, if_neg hx, if_neg (by simpa using Ne.symm hx), Nat.add_zero]
    · rw [if_pos (by simp [he]), List.map_cons, List.count_cons, ih]
      by_cases hx : x = m
      · rw [if_pos hx, if_pos hx, hx, if_neg (by simpa using he)]
      · rw [if_neg hx, if_neg hx]

/-- A module is closed after what was unloaded while it was being unloaded. -/
theorem Dropped.close {seg : List M}
    (h : Dropped ((s.setLoaded m false).setExported m false) s' seg) :
    Dropped s { s' with closed := s'.closed ++ [m] } (seg ++ [m]) where
  names := h.names
  reloading := h.reloading
  fresh := h.fresh
  closed := by
    change s'.closed ++ [m] = _
    rw [h.closed, List.append_assoc]
    rfl
  lists := h.lists
  mono x hx := by
    have hx' := h.mono x hx
    change (s.setLoaded m false).loaded x = true at hx'
    by_cases hxm : x = m
    · rw [hxm, loaded_setLoaded_self] at hx'
      cases hx'
    · rwa [loaded_setLoaded_of_ne s false hxm] at hx'
  gone x hx hx' := by
    rw [List.mem_append, List.mem_singleton]
    by_cases hxm : x = m
    · exact .inr hxm
    · refine .inl (h.gone x ?_ hx')
      change (s.setLoaded m false).loaded x = true
      rwa [loaded_setLoaded_of_ne s false hxm]

omit [DecidableEq M] in
/-- Each element has a number of its own, so that only one is taken off. -/
theorem filter_head {e : ℕ × M} {l : List (ℕ × M)} (hids : ((e :: l).map Prod.fst).Nodup) :
    (e :: l).filter (fun e' => e'.1 != e.1) = l := by
  rw [List.map_cons, List.nodup_cons] at hids
  rw [List.filter_cons_of_neg (by simp), List.filter_eq_self]
  intro e' he'
  rw [bne_iff_ne]
  exact fun heq => hids.1 (heq ▸ List.mem_map_of_mem he')

/-! ### On the way -/

/-- What holds while the modules of `t` are being unloaded. A module that waits for a reload stays
on the lists of those that are to be unloaded after it. -/
structure Unloading (D : M → List M) (U t : M → Prop) (s : Modules M) : Prop where
  safe : s.fault = false
  known : ∀ x, s.loaded x = true → x ∈ s.names
  out : ∀ x, t x → s.loaded x = false
  links : ∀ x y, s.loaded x = true → s.links x y = (D x).count y
  absent : ∀ x y, s.loaded x = false → ¬ t x → s.links x y ≠ 0 → U y ∧ (s.loaded y = true ∨ t y)
  deps : ∀ x, s.loaded x = true → ∀ y ∈ D x, s.loaded y = true ∨ t y
  ids : ∀ y, ((s.dependants y).map Prod.fst).Nodup

variable {U t : M → Prop}

/-- A dependant that is loaded depends on the module. -/
theorem Unloading.mem_of_dependant (h : Unloading D U t s) {e : ℕ × M} (he : e ∈ s.dependants m)
    (hloaded : s.loaded e.2 = true) : m ∈ D e.2 := by
  rw [← List.count_pos_iff, ← h.links e.2 m hloaded]
  exact links_pos_of_mem he

/-- A module is marked as not loaded before its dependants are unloaded. -/
theorem Unloading.begin (h : Unloading D U t s) (m : M) :
    Unloading D U (fun x => t x ∨ x = m) ((s.setLoaded m false).setExported m false) := by
  have hloaded : ∀ x, ((s.setLoaded m false).setExported m false).loaded x = true ↔
      x ≠ m ∧ s.loaded x = true := by
    intro x
    change (s.setLoaded m false).loaded x = true ↔ _
    by_cases hx : x = m
    · subst hx
      simp
    · rw [loaded_setLoaded_of_ne s false hx]
      exact ⟨fun hand => ⟨hx, hand⟩, And.right⟩
  have hor : ∀ y, s.loaded y = true ∨ t y →
      ((s.setLoaded m false).setExported m false).loaded y = true ∨ t y ∨ y = m := by
    intro y hy
    by_cases hym : y = m
    · exact .inr (.inr hym)
    · rw [hloaded]
      exact hy.imp (fun hy' => ⟨hym, hy'⟩) .inl
  exact
    { safe := h.safe
      known := fun x hx => h.known x ((hloaded x).mp hx).2
      out := fun x hx => by
        rw [← Bool.not_eq_true, hloaded]
        rintro ⟨hne, hx'⟩
        rw [h.out x (hx.resolve_right hne)] at hx'
        cases hx'
      links := fun x y hx => h.links x y ((hloaded x).mp hx).2
      absent := fun x y hx ht hlinks => by
        obtain ⟨ht, hne⟩ := not_or.mp ht
        have hx' : s.loaded x = false := Bool.eq_false_iff.mpr fun hx' => by
          rw [(hloaded x).mpr ⟨hne, hx'⟩] at hx
          cases hx
        exact (h.absent x y hx' ht hlinks).imp_right (hor y)
      deps := fun x hx y hy => hor y (h.deps x ((hloaded x).mp hx).2 y hy)
      ids := h.ids }

/-- An element for a module that is not loaded is taken off. -/
theorem Unloading.freeDependant (h : Unloading D U t s) {e : ℕ × M} {l : List (ℕ × M)}
    (hl : s.dependants m = e :: l) (he : s.loaded e.2 = false) :
    Unloading D U t (s.freeDependant m e.1) ∧ (s.freeDependant m e.1).dependants m = l := by
  have hids := h.ids m
  rw [hl] at hids
  have hdep : (s.freeDependant m e.1).dependants m = l := by
    rw [Modules.freeDependant]
    dsimp only
    rw [Function.update_self, hl, filter_head hids]
  have hlinks : ∀ x y, x ≠ e.2 → (s.freeDependant m e.1).links x y = s.links x y := by
    intro x y hx
    by_cases hy : y = m
    · subst hy
      rw [Modules.links, Modules.links, hdep, hl, List.map_cons,
        List.count_cons_of_ne (Ne.symm hx)]
    · rw [Modules.links, Modules.links, Modules.freeDependant]
      dsimp only
      rw [Function.update_of_ne hy]
  have hdropped := Dropped.freeDependant s m e.1
  refine ⟨?_, hdep⟩
  exact
    { safe := h.safe
      known := h.known
      out := h.out
      links := fun x y hx => by
        have hne : x ≠ e.2 := by
          rintro rfl
          cases hx.symm.trans he
        rw [hlinks x y hne]
        exact h.links x y hx
      absent := fun x y hx ht hpos => h.absent x y hx ht fun hzero => by
        have hle := hdropped.links_le x y
        rw [hzero] at hle
        exact hpos (Nat.le_zero.mp hle)
      deps := h.deps
      ids := fun y => ((hdropped.lists y).map Prod.fst).nodup (h.ids y) }

/-- A module that has no dependants left is no more on the way. -/
theorem Unloading.arrive (h : Unloading D U (fun x => t x ∨ x = m) s) (hdep : s.dependants m = [])
    (hlinks : ∀ y, s.links m y ≠ 0 → U y ∧ (s.loaded y = true ∨ t y)) : Unloading D U t s where
  safe := h.safe
  known := h.known
  out x hx := h.out x (.inl hx)
  links := h.links
  absent x y hx ht hpos := by
    by_cases hxm : x = m
    · exact hlinks y (hxm ▸ hpos)
    · refine (h.absent x y hx (not_or.mpr ⟨ht, hxm⟩) hpos).imp_right (Or.imp_right ?_)
      refine fun hy => hy.resolve_right ?_
      rintro rfl
      rw [Modules.links, hdep] at hpos
      exact hpos rfl
  deps x hx y hy := by
    refine (h.deps x hx y hy).imp_right fun ht => ht.resolve_right ?_
    rintro rfl
    have hcount := h.links x y hx
    rw [Modules.links, hdep] at hcount
    exact (List.count_pos_iff.mpr hy).ne' hcount.symm
  ids := h.ids

/-- A module is taken off all lists. -/
theorem Unloading.dropDependant (h : Unloading D U t s) (hm : s.loaded m = false) :
    Unloading D U t (s.dropDependant m) where
  safe := h.safe
  known := h.known
  out := h.out
  links x y hx := by
    have hne : x ≠ m := by
      rintro rfl
      cases hm.symm.trans hx
    rw [links_dropDependant, if_neg hne]
    exact h.links x y hx
  absent x y hx ht hpos := by
    rw [links_dropDependant] at hpos
    split at hpos
    · exact absurd rfl hpos
    · exact h.absent x y hx ht hpos
  deps := h.deps
  ids y := (((Dropped.dropDependant s m).lists y).map Prod.fst).nodup (h.ids y)

/-! ### An unload -/

/-- The modules that are loaded. -/
def loadedCount [Fintype M] (s : Modules M) : ℕ :=
  (Finset.univ.filter fun x => s.loaded x = true).card

omit [DecidableEq M] in
theorem loadedCount_le [Fintype M] (h : ∀ x, s'.loaded x = true → s.loaded x = true) :
    loadedCount s' ≤ loadedCount s :=
  Finset.card_le_card fun x hx => by
    rw [Finset.mem_filter] at hx ⊢
    exact ⟨hx.1, h x hx.2⟩

omit [DecidableEq M] in
theorem loadedCount_lt [Fintype M] (h : ∀ x, s'.loaded x = true → s.loaded x = true)
    (hm : s.loaded m = true) (hm' : s'.loaded m = false) : loadedCount s' < loadedCount s := by
  refine Finset.card_lt_card ⟨fun x hx => ?_, fun hsub => ?_⟩
  · rw [Finset.mem_filter] at hx ⊢
    exact ⟨hx.1, h x hx.2⟩
  · have hmem := hsub (Finset.mem_filter.mpr ⟨Finset.mem_univ m, hm⟩)
    cases hm'.symm.trans (Finset.mem_filter.mp hmem).2

/-- The steps that a list of dependants takes: two for one that is loaded. -/
def weight (loaded : M → Bool) : List (ℕ × M) → ℕ
  | [] => 0
  | e :: l => (if loaded e.2 then 2 else 1) + weight loaded l

omit [DecidableEq M] in
theorem weight_le_of_sublist {loaded loaded' : M → Bool} {l l' : List (ℕ × M)}
    (hl : l'.Sublist l) (h : ∀ x, loaded' x = true → loaded x = true) :
    weight loaded' l' ≤ weight loaded l := by
  induction hl with
  | slnil => exact Nat.le_refl 0
  | cons e _ ih => exact ih.trans (Nat.le_add_left _ _)
  | cons_cons e _ ih =>
    rw [weight, weight]
    cases hl' : loaded' e.2 with
    | true =>
      rw [h e.2 hl']
      exact Nat.add_le_add_left ih _
    | false =>
      refine Nat.add_le_add ?_ ih
      rw [if_neg Bool.false_ne_true]
      split
      · decide
      · exact Nat.le_refl 1

omit [DecidableEq M] in
theorem weight_le_length (loaded : M → Bool) (l : List (ℕ × M)) :
    weight loaded l ≤ 2 * l.length := by
  induction l with
  | nil => exact Nat.le_refl 0
  | cons e l ih =>
    rw [weight, List.length_cons]
    split <;> omega

/-- A module has been unloaded, the last of those that have been. -/
structure Unloaded (D : M → List M) (U t : M → Prop) (s s' : Modules M) (m : M) : Prop where
  keeps : Unloading D U t s'
  gone : s'.loaded m = false
  dropped : ∃ seg, Dropped s s' (seg ++ [m])

/-- What is to be unloaded: with a module, all that depend on it. One that waits for a reload has no
dependants, and what it depends on is to be unloaded too. -/
structure Leaves (D : M → List M) (U : M → Prop) (s : Modules M) : Prop where
  deps : ∀ x y, U y → y ∈ D x → U x
  nil : ∀ x, s.loaded x = true → U x → s.reloading x = true → s.dependants x = []
  mem : ∀ x, s.loaded x = true → U x → s.reloading x = true → ∀ y ∈ D x, U y

omit [DecidableEq M] in
theorem Leaves.dropped {seg : List M} (h : Leaves D U s) (hs : Dropped s s' seg) :
    Leaves D U s' where
  deps := h.deps
  nil x hx hU hr := by
    rw [hs.reloading] at hr
    have hsub := hs.lists x
    rw [h.nil x (hs.mono x hx) hU hr] at hsub
    exact List.sublist_nil.mp hsub
  mem x hx hU hr := by
    rw [hs.reloading] at hr
    exact h.mem x (hs.mono x hx) hU hr

variable [Fintype M]

/-- The dependants are unloaded, or taken off, until there are none. -/
theorem Unloading.unloadLoop
    (hunload : ∀ {t s d}, Unloading D U t s → Leaves D U s → U d → s.loaded d = true →
      loadedCount s < n → Unloaded D U t s (unloadModule n s d).1 d)
    (h : Unloading D U t s) (hleaves : Leaves D U s) (hU : U m) (hm : s.reloading m = false)
    (hcount : loadedCount s < n) {k : ℕ} (hk : weight s.loaded (s.dependants m) ≤ k) :
    Unloading D U t (unloadLoop (unloadModule n) m k (s.dependants m).head? s) ∧
      (unloadLoop (unloadModule n) m k (s.dependants m).head? s).dependants m = [] ∧
      ∃ seg, Dropped s (unloadLoop (unloadModule n) m k (s.dependants m).head? s) seg := by
  induction k generalizing s with
  | zero =>
    cases hl : s.dependants m with
    | nil => exact ⟨h, hl, [], .refl s⟩
    | cons e l =>
      rw [hl, weight] at hk
      split at hk
      · omega
      · omega
  | succ k ih =>
    cases hl : s.dependants m with
    | nil => exact ⟨h, hl, [], .refl s⟩
    | cons e l =>
      have hmem : e ∈ s.dependants m := hl ▸ List.mem_cons_self
      rw [hl, weight] at hk
      rw [List.head?_cons, Modules.unloadLoop, hm, if_neg Bool.false_ne_true]
      dsimp only
      by_cases hloaded : s.loaded e.2 = true
      · rw [if_pos hloaded] at hk ⊢
        have hd := hunload h hleaves (hleaves.deps e.2 m hU (h.mem_of_dependant hmem hloaded))
          hloaded hcount
        generalize (unloadModule n s e.2).1 = s' at hd
        obtain ⟨hkeeps, hgone, seg, hdropped⟩ := hd
        -- The dependant is gone, or it is left as one that is not loaded.
        have hless : weight s'.loaded (s'.dependants m) ≤ k := by
          have hsub := hdropped.lists m
          rw [hl] at hsub
          rcases List.sublist_cons_iff.mp hsub with hsub | ⟨r, heq, hsub⟩
          · have hle := weight_le_of_sublist hsub hdropped.mono
            omega
          · have hle := weight_le_of_sublist hsub hdropped.mono
            rw [heq, weight, hgone, if_neg Bool.false_ne_true]
            omega
        have hrest := ih hkeeps (hleaves.dropped hdropped) (by rw [hdropped.reloading, hm])
          (Nat.lt_of_le_of_lt (loadedCount_le hdropped.mono) hcount) hless
        obtain ⟨hkeeps', hnil, seg', hdropped'⟩ := hrest
        exact ⟨hkeeps', hnil, _, hdropped.trans hdropped'⟩
      · rw [if_neg hloaded] at hk ⊢
        obtain ⟨hfree, hdep⟩ := h.freeDependant hl (Bool.eq_false_iff.mpr hloaded)
        have hdropped := Dropped.freeDependant s m e.1
        have hless : weight (s.freeDependant m e.1).loaded ((s.freeDependant m e.1).dependants m) ≤
            k := by
          rw [hdep]
          change weight s.loaded l ≤ k
          omega
        obtain ⟨hkeeps, hnil, seg, hdropped'⟩ :=
          ih hfree (hleaves.dropped hdropped) hm hcount hless
        exact ⟨hkeeps, hnil, _, hdropped.trans hdropped'⟩

/-- An unload keeps what holds on the way. -/
theorem Unloading.unloadModule (h : Unloading D U t s) (hleaves : Leaves D U s) (hU : U m)
    (hm : s.loaded m = true) (hcount : loadedCount s < n) :
    Unloaded D U t s (Modules.unloadModule n s m).1 m := by
  induction n generalizing t s m with
  | zero => cases hcount
  | succ n ih =>
    have hloaded : ∀ x, ((s.setLoaded m false).setExported m false).loaded x = true →
        s.loaded x = true := by
      intro x hx
      change (s.setLoaded m false).loaded x = true at hx
      by_cases hxm : x = m
      · rwa [hxm]
      · rwa [loaded_setLoaded_of_ne s false hxm] at hx
    have hcount' : loadedCount ((s.setLoaded m false).setExported m false) < n := by
      have hlt := loadedCount_lt hloaded hm (loaded_setLoaded_self s m false)
      omega
    have hbegin := h.begin m
    have hleaves' : Leaves D U ((s.setLoaded m false).setExported m false) :=
      { deps := hleaves.deps
        nil := fun x hx => hleaves.nil x (hloaded x hx)
        mem := fun x hx => hleaves.mem x (hloaded x hx) }
    rw [Modules.unloadModule, if_neg (not_not.mpr (h.known m hm)), hm, if_neg (by decide)]
    dsimp only
    cases hmr : s.reloading m with
    | true =>
      have hnil : s.dependants m = [] := hleaves.nil m hm hU hmr
      have hnil' : ((s.setLoaded m false).setExported m false).dependants m = [] := hnil
      have hmr' : ((s.setLoaded m false).setExported m false).reloading m = true := hmr
      rw [hnil']
      change Unloaded D U t s (if ((s.setLoaded m false).setExported m false).reloading m = true
        then _ else _) m
      rw [if_pos hmr']
      refine ⟨{ hbegin.arrive hnil' fun y hy => ?_ with }, loaded_setLoaded_self s m false,
        [], (Dropped.refl _).close⟩
      have hlink : s.links m y = (D m).count y := h.links m y hm
      have hy' : y ∈ D m := List.count_pos_iff.mp (hlink ▸ Nat.pos_of_ne_zero hy)
      have hne : y ≠ m := by
        rintro rfl
        change s.links y y ≠ 0 at hy
        rw [Modules.links, hnil] at hy
        exact hy rfl
      refine ⟨hleaves.mem m hm hU hmr y hy', (h.deps m hm y hy').imp_left fun hl => ?_⟩
      change (s.setLoaded m false).loaded y = true
      rwa [loaded_setLoaded_of_ne s false hne]
    | false =>
      obtain ⟨hkeeps, hnil, seg, hdropped⟩ := hbegin.unloadLoop ih hleaves' hU hmr hcount'
        (weight_le_length _ _)
      have hmr' := congrFun hdropped.reloading m
      generalize Modules.unloadLoop (Modules.unloadModule n) m
        (2 * (((s.setLoaded m false).setExported m false).dependants m).length)
        (((s.setLoaded m false).setExported m false).dependants m).head?
        ((s.setLoaded m false).setExported m false) = s' at hkeeps hnil hdropped hmr' ⊢
      rw [hmr'.trans hmr, if_neg Bool.false_ne_true]
      have hclosed : Unloading D U (fun x => t x ∨ x = m)
          { s' with closed := s'.closed ++ [m] } := { hkeeps with }
      have hgone : s'.loaded m = false := hkeeps.out m (.inr rfl)
      have hdrop := Dropped.dropDependant { s' with closed := s'.closed ++ [m] } m
      refine ⟨(hclosed.dropDependant hgone).arrive ?_ fun y hy => ?_, hgone, seg, ?_⟩
      · have hsub := hdrop.lists m
        dsimp only at hsub
        rw [hnil] at hsub
        exact List.sublist_nil.mp hsub
      · rw [links_dropDependant, if_pos rfl] at hy
        exact absurd rfl hy
      · exact List.append_nil (seg ++ [m]) ▸ hdropped.close.trans hdrop

end Modules

end Ithildin
