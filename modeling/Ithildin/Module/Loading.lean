import Ithildin.Module.Loader

/-!
# What a load keeps

While a module is being loaded its flag is set although only some of its dependencies have it on
their lists. `Loading` says what holds meanwhile, of any number of modules that are on the way:
`p` tells which they are, and how far they have come.

* `Grown`: no module has been unloaded, and the flags are raised of modules that are loaded;
* `Loading.loadModule`: a load of what is `Fit` ends well and keeps what holds on the way.
-/

namespace Ithildin

namespace Modules

variable {M : Type} [DecidableEq M] {D : M → List M} {w : World M} {s s' s'' : Modules M}
  {m x y : M}
  {f : LoadFlags} {n : ℕ}

/-! ### Lists of dependants -/

@[simp] theorem links_setLoaded {b : Bool} : (s.setLoaded m b).links x y = s.links x y := rfl

@[simp] theorem links_setExported {b : Bool} : (s.setExported m b).links x y = s.links x y := rfl

@[simp] theorem links_setReloading {b : Bool} : (s.setReloading m b).links x y = s.links x y := rfl

theorem enter_of_mem (h : m ∈ s.names) : s.enter m = s := if_pos h

@[simp] theorem mem_enter : x ∈ (s.enter m).names ↔ x ∈ s.names ∨ x = m := by
  rw [enter]
  split
  · rename_i h
    exact ⟨.inl, fun hx => hx.elim id fun heq => heq ▸ h⟩
  · exact List.mem_append.trans (or_congr_right List.mem_singleton)

@[simp] theorem loaded_enter : (s.enter m).loaded = s.loaded := by
  rw [enter]
  split <;> rfl

@[simp] theorem exported_enter : (s.enter m).exported = s.exported := by
  rw [enter]
  split <;> rfl

@[simp] theorem reloading_enter : (s.enter m).reloading = s.reloading := by
  rw [enter]
  split <;> rfl

@[simp] theorem dependants_enter : (s.enter m).dependants = s.dependants := by
  rw [enter]
  split <;> rfl

@[simp] theorem fresh_enter : (s.enter m).fresh = s.fresh := by
  rw [enter]
  split <;> rfl

@[simp] theorem fault_enter : (s.enter m).fault = s.fault := by
  rw [enter]
  split <;> rfl

@[simp] theorem closed_enter : (s.enter m).closed = s.closed := by
  rw [enter]
  split <;> rfl

theorem links_enter : (s.enter m).links x y = s.links x y := by
  rw [links, dependants_enter]
  rfl

theorem links_addDependant {z : M} : (s.addDependant m y).links x z =
    s.links x z + if z = y ∧ x = m then 1 else 0 := by
  rw [links, addDependant]
  dsimp only
  by_cases hz : z = y
  · subst hz
    rw [Function.update_self, List.map_cons, List.count_cons, links]
    simp only [true_and, beq_iff_eq, eq_comm (a := m)]
  · rw [Function.update_of_ne hz, if_neg fun h => hz h.1]
    rfl

omit [DecidableEq M] in
/-- The element behind one of the list. -/
theorem listNext_eq {l front rest : List (ℕ × M)} {e : ℕ × M} (hl : l = front ++ e :: rest)
    (hids : (l.map Prod.fst).Nodup) : listNext l e.1 = some rest.head? := by
  subst hl
  have hfront : ∀ e' ∈ front, (e'.1 != e.1) = true := by
    intro e' he'
    rw [bne_iff_ne]
    intro heq
    rw [List.map_append, List.map_cons, List.nodup_append] at hids
    exact hids.2.2 e'.1 (List.mem_map_of_mem he') e.1 List.mem_cons_self heq
  rw [listNext, List.dropWhile_append_of_pos hfront, List.dropWhile_cons_of_neg (by simp)]

theorem links_pos_of_mem {e : ℕ × M} (he : e ∈ s.dependants y) : 0 < s.links e.2 y :=
  List.count_pos_iff.mpr (List.mem_map_of_mem he)

/-! ### On the way -/

/-- What a module is on the lists of: what it depends on, or the part of that it has come to. -/
def due (D : M → List M) (p : M → Option (List M)) (s : Modules M) (x : M) : List M :=
  match p x with
  | some done => done
  | none => if s.loaded x then D x else []

/-- What holds while the modules of `p` are on the way. -/
structure Loading (D : M → List M) (p : M → Option (List M)) (s : Modules M) : Prop where
  safe : s.fault = false
  names : s.names ≠ []
  known : ∀ x, s.loaded x = true → x ∈ s.names
  mid : ∀ x, p x ≠ none → s.loaded x = true
  links : ∀ x y, s.links x y = (due D p s x).count y
  deps : ∀ x, ∀ y ∈ due D p s x, s.loaded y = true
  nodup : ∀ x, s.loaded x = true → (D x).Nodup
  ids : ∀ y, ((s.dependants y).map Prod.fst).Nodup
  fresh : ∀ y, ∀ e ∈ s.dependants y, e.1 < s.fresh

variable {p : M → Option (List M)}

theorem Loading.loaded_of_mem (h : Loading D p s) {e : ℕ × M} (he : e ∈ s.dependants y) :
    s.loaded e.2 = true := by
  have hpos := links_pos_of_mem he
  rw [h.links, due] at hpos
  cases hp : p e.2 with
  | some done => exact h.mid e.2 (by simp [hp])
  | none =>
    rw [hp] at hpos
    dsimp only at hpos
    by_contra hloaded
    rw [if_neg hloaded] at hpos
    exact Nat.lt_irrefl 0 hpos

theorem Loading.setExported {b : Bool} (h : Loading D p s) : Loading D p (s.setExported m b) :=
  { h with }

theorem Loading.setReloading {b : Bool} (h : Loading D p s) :
    Loading D p (s.setReloading m b) :=
  { h with }

theorem Loading.enter (h : Loading D p s) (m : M) : Loading D p (s.enter m) where
  safe := by rw [fault_enter, h.safe]
  names hnil := by
    have hm : m ∈ (s.enter m).names := mem_enter.mpr (.inr rfl)
    rw [hnil] at hm
    cases hm
  known x hx := by
    rw [loaded_enter] at hx
    exact mem_enter.mpr (.inl (h.known x hx))
  mid x hx := by
    rw [loaded_enter]
    exact h.mid x hx
  links x y := by
    rw [links_enter, h.links, due, due, loaded_enter]
  deps x y hy := by
    rw [due, loaded_enter] at hy
    rw [loaded_enter]
    exact h.deps x y hy
  nodup x hx := by
    rw [loaded_enter] at hx
    exact h.nodup x hx
  ids y := by
    rw [dependants_enter]
    exact h.ids y
  fresh y e he := by
    rw [dependants_enter] at he
    rw [fresh_enter]
    exact h.fresh y e he

/-- A module sets out. -/
theorem Loading.begin (h : Loading D p s) (hm : s.loaded m = false) (hnames : m ∈ s.names)
    (hnodup : (D m).Nodup) :
    Loading D (Function.update p m (some [])) (s.setLoaded m true) := by
  have hp : p m = none := by
    by_contra hp
    rw [h.mid m hp] at hm
    cases hm
  have hloaded : ∀ x, (s.setLoaded m true).loaded x = true ↔ x = m ∨ s.loaded x = true := by
    intro x
    by_cases hxm : x = m
    · subst hxm
      simp
    · rw [loaded_setLoaded_of_ne s true hxm, or_iff_right hxm]
  have hdue : ∀ x, due D (Function.update p m (some [])) (s.setLoaded m true) x = due D p s x := by
    intro x
    by_cases hxm : x = m
    · subst hxm
      rw [due, due, Function.update_self, hp]
      dsimp only
      rw [if_neg (by simp [hm])]
    · rw [due, due, Function.update_of_ne hxm, loaded_setLoaded_of_ne s true hxm]
  exact
    { safe := h.safe
      names := h.names
      known := fun x hx => ((hloaded x).mp hx).elim (fun heq => heq ▸ hnames) (h.known x)
      mid := fun x hx => by
        rw [hloaded]
        by_cases hxm : x = m
        · exact .inl hxm
        · rw [Function.update_of_ne hxm] at hx
          exact .inr (h.mid x hx)
      links := fun x y => by rw [links_setLoaded, h.links, hdue]
      deps := fun x y hy => by
        rw [hdue] at hy
        exact (hloaded y).mpr (.inr (h.deps x y hy))
      nodup := fun x hx => ((hloaded x).mp hx).elim (fun heq => heq ▸ hnodup) (h.nodup x)
      ids := h.ids
      fresh := h.fresh }

/-- A module is put on the list of one that it depends on. -/
theorem Loading.addDependant {done : List M} (h : Loading D (Function.update p m (some done)) s)
    (hy : s.loaded y = true) :
    Loading D (Function.update p m (some (done ++ [y]))) (s.addDependant m y) := by
  have hdue : ∀ x, x ≠ m → due D (Function.update p m (some (done ++ [y]))) (s.addDependant m y) x =
      due D (Function.update p m (some done)) s x := by
    intro x hxm
    rw [due, due, Function.update_of_ne hxm, Function.update_of_ne hxm]
    rfl
  have hself : ∀ done', due D (Function.update p m (some done')) s m = done' := by
    intro done'
    rw [due, Function.update_self]
  have hself' : due D (Function.update p m (some (done ++ [y]))) (s.addDependant m y) m =
      done ++ [y] := by
    rw [due, Function.update_self]
  exact
    { safe := h.safe
      names := h.names
      known := h.known
      mid := fun x hx => h.mid x fun hnone => by
        by_cases hxm : x = m
        · rw [hxm, Function.update_self] at hnone
          cases hnone
        · rw [Function.update_of_ne hxm] at hx hnone
          exact hx hnone
      links := fun x z => by
        rw [links_addDependant, h.links]
        by_cases hxm : x = m
        · subst hxm
          rw [hself, hself', List.count_append, List.count_singleton]
          simp only [and_true, beq_iff_eq, eq_comm (a := y)]
        · rw [hdue x hxm, if_neg fun hand => hxm hand.2, Nat.add_zero]
      deps := fun x z hz => by
        by_cases hxm : x = m
        · rw [hxm, hself', List.mem_append, List.mem_singleton] at hz
          rcases hz with hz | rfl
          · exact h.deps m z (by rw [hself]; exact hz)
          · exact hy
        · rw [hdue x hxm] at hz
          exact h.deps x z hz
      nodup := h.nodup
      ids := fun z => by
        dsimp only [Modules.addDependant]
        by_cases hz : z = y
        · subst hz
          rw [Function.update_self, List.map_cons, List.nodup_cons]
          refine ⟨fun hmem => ?_, h.ids z⟩
          obtain ⟨e, he, hfresh⟩ := List.mem_map.mp hmem
          exact Nat.lt_irrefl _ (hfresh ▸ h.fresh z e he)
        · rw [Function.update_of_ne hz]
          exact h.ids z
      fresh := fun z e he => by
        dsimp only [Modules.addDependant] at he ⊢
        by_cases hz : z = y
        · subst hz
          rw [Function.update_self, List.mem_cons] at he
          rcases he with rfl | he
          · exact Nat.lt_succ_self _
          · exact Nat.lt_succ_of_lt (h.fresh z e he)
        · rw [Function.update_of_ne hz] at he
          exact Nat.lt_succ_of_lt (h.fresh z e he) }

/-- A module has arrived. -/
theorem Loading.arrive (h : Loading D (Function.update p m (some (D m))) s) (hp : p m = none) :
    Loading D p s := by
  have hm : s.loaded m = true := h.mid m (by simp)
  have hdue : ∀ x, due D p s x = due D (Function.update p m (some (D m))) s x := by
    intro x
    by_cases hxm : x = m
    · subst hxm
      rw [due, due, Function.update_self, hp]
      exact if_pos hm
    · rw [due, due, Function.update_of_ne hxm]
  exact
    { h with
      mid := fun x hx => h.mid x fun hnone => by
        by_cases hxm : x = m
        · exact hx (hxm ▸ hp)
        · rw [Function.update_of_ne hxm] at hnone
          exact hx hnone
      links := fun x y => by rw [h.links, hdue]
      deps := fun x y hy => h.deps x y (hdue x ▸ hy) }

/-- Only flags that do not matter here have been changed. -/
theorem Loading.congr (h : Loading D p s) (hfault : s'.fault = s.fault)
    (hnames : s'.names = s.names) (hloaded : s'.loaded = s.loaded)
    (hdep : s'.dependants = s.dependants) (hfresh : s'.fresh = s.fresh) : Loading D p s' := by
  have hdue : ∀ x, due D p s' x = due D p s x := by
    intro x
    rw [due, due, hloaded]
  exact
    { safe := hfault.trans h.safe
      names := by rw [hnames]; exact h.names
      known := by rw [hnames, hloaded]; exact h.known
      mid := by rw [hloaded]; exact h.mid
      links := fun x y => by rw [hdue, ← h.links, Modules.links, Modules.links, hdep]
      deps := fun x y hy => by
        rw [hloaded]
        exact h.deps x y (hdue x ▸ hy)
      nodup := by rw [hloaded]; exact h.nodup
      ids := by rw [hdep]; exact h.ids
      fresh := by rw [hdep, hfresh]; exact h.fresh }

theorem Loading.raiseExported (h : Loading D p s) (m : M) (b : Bool) :
    Loading D p (s.raiseExported m b) := by
  cases b with
  | false => exact h
  | true => exact h.setExported

theorem Loading.raiseReloading (h : Loading D p s) (m : M) (b : Bool) :
    Loading D p (s.raiseReloading m b) := by
  cases b with
  | false => exact h
  | true => exact h.setReloading

/-! ### What grows -/

/-- No module has been unloaded or forgotten, and `DEPENDLOAD` has been set of modules that are
loaded now. -/
structure Grown (s s' : Modules M) : Prop where
  names : ∀ x ∈ s.names, x ∈ s'.names
  loaded : ∀ x, s.loaded x = true → s'.loaded x = true
  exported : ∀ x, s.exported x = true → s'.exported x = true
  raised : ∀ x, s'.exported x = true → s.exported x = true ∨ s'.loaded x = true

omit [DecidableEq M] in
theorem Grown.refl (s : Modules M) : Grown s s :=
  ⟨fun _ => id, fun _ => id, fun _ => id, fun _ => .inl⟩

omit [DecidableEq M] in
theorem Grown.trans (h : Grown s s') (h' : Grown s' s'') : Grown s s'' where
  names x hx := h'.names x (h.names x hx)
  loaded x hx := h'.loaded x (h.loaded x hx)
  exported x hx := h'.exported x (h.exported x hx)
  raised x hx := (h'.raised x hx).elim (fun hx' => (h.raised x hx').imp_right (h'.loaded x)) .inr

theorem Grown.enter (s : Modules M) (m : M) : Grown s (s.enter m) where
  names x hx := mem_enter.mpr (.inl hx)
  loaded x hx := by rwa [loaded_enter]
  exported x hx := by rwa [exported_enter]
  raised x hx := .inl (by rwa [exported_enter] at hx)

theorem Grown.setLoaded (s : Modules M) (m : M) : Grown s (s.setLoaded m true) :=
  { Grown.refl s with
    loaded := fun x hx => by
      by_cases hxm : x = m
      · rw [hxm, loaded_setLoaded_self]
      · rwa [loaded_setLoaded_of_ne s true hxm]
    raised := fun _ => .inl }

theorem Grown.setExported (hm : s.loaded m = true) : Grown s (s.setExported m true) :=
  { Grown.refl s with
    exported := fun x hx => by
      dsimp only [Modules.setExported]
      by_cases hxm : x = m
      · rw [hxm, Function.update_self]
      · rwa [Function.update_of_ne hxm]
    raised := fun x hx => by
      dsimp only [Modules.setExported] at hx ⊢
      by_cases hxm : x = m
      · exact .inr (hxm ▸ hm)
      · rw [Function.update_of_ne hxm] at hx
        exact .inl hx }

theorem Grown.raiseExported (hm : s.loaded m = true) (b : Bool) :
    Grown s (s.raiseExported m b) := by
  cases b with
  | false => exact .refl s
  | true => exact .setExported hm

theorem Grown.raiseReloading (s : Modules M) (m : M) (b : Bool) :
    Grown s (s.raiseReloading m b) := by
  cases b with
  | false => exact .refl s
  | true => exact { Grown.refl s with }

/-- What is to be loaded can be, with what it depends on in turn. -/
structure Fit (D : M → List M) (w : World M) (R : M → Prop) (s : Modules M) : Prop where
  deps : ∀ x, R x → s.loaded x = false → ∀ y ∈ D x, R y
  loads : ∀ x, R x → s.loaded x = false → Loads D w s x
  exported : ∀ x, R x → s.loaded x = false → s.exported x = false
  opens : ∀ x, R x → s.loaded x = true → s.exported x = true ∨ w.opens x = true

omit [DecidableEq M] in
theorem Fit.grown {R : M → Prop} (h : Fit D w R s) (hs : Grown s s') : Fit D w R s' := by
  have hback : ∀ x, s'.loaded x = false → s.loaded x = false := by
    intro x hx
    by_contra hne
    cases hx.symm.trans (hs.loaded x (Bool.not_eq_false _ ▸ hne))
  exact
    { deps := fun x hx hx' => h.deps x hx (hback x hx')
      loads := fun x hx hx' =>
        let hl := h.loads x hx (hback x hx')
        { hl with file := hl.file.imp_left (hs.names x) }
      exported := fun x hx hx' => by
        by_contra hne
        rcases hs.raised x (Bool.not_eq_false _ ▸ hne) with he | hl
        · cases (h.exported x hx (hback x hx')).symm.trans he
        · cases hx'.symm.trans hl
      opens := fun x hx hx' => by
        cases hl : s.loaded x with
        | true => exact (h.opens x hx hl).imp_left (hs.exported x)
        | false => exact .inr (h.loads x hx hl).opens }

/-! ### Modules that are loaded already -/

theorem setExported_of_exported (h : s.exported m = true) : s.setExported m true = s := by
  have heq : Function.update s.exported m true = s.exported := by
    rw [← h, Function.update_eq_self]
  rw [setExported, heq]

theorem openModule_of_loaded {load : Modules M → M → LoadFlags → Modules M × Bool}
    (h : s.loaded m = true) :
    (openModule w load s m f).1 = s.raiseExported m f.exported := by
  rw [openModule]
  split
  · rename_i hboth
    rw [Bool.and_eq_true, Bool.and_eq_true] at hboth
    obtain ⟨⟨hf, he⟩, -⟩ := hboth
    rw [raiseExported, if_pos hf, setExported_of_exported he]
  · rw [openFile]
    split
    · rfl
    · rw [loaded_raiseExported, if_pos h]

theorem openModule_of_loaded_snd {load : Modules M → M → LoadFlags → Modules M × Bool}
    (h : s.loaded m = true) (hopens : w.opens m = true) :
    (openModule w load s m f).2 = true := by
  rw [openModule]
  split
  · rfl
  · rw [openFile, hopens, loaded_raiseExported, if_neg (by decide), if_pos h]

theorem loadModule_of_loaded (hn : 0 < n) (hm : m ∈ s.names) (h : s.loaded m = true) :
    (loadModule D w n s m f).1 = s.raiseExported m f.exported := by
  obtain ⟨n, rfl⟩ := Nat.exists_eq_add_of_le' hn
  rw [loadModule, if_neg (fun hand => hand.1 hm), if_neg (List.ne_nil_of_mem hm), enter_of_mem hm]
  dsimp only
  rw [if_pos h]
  exact openModule_of_loaded h

/-- The walk at the end of a reload finds all dependants loaded. -/
theorem Loading.loadDependants (hn : 0 < n) {rest : List (ℕ × M)} (h : Loading D p s)
    (front : List (ℕ × M)) (hrest : s.dependants m = front ++ rest) :
    Loading D p (loadDependants (loadModule D w n) m rest.length rest.head? s) ∧
      Grown s (loadDependants (loadModule D w n) m rest.length rest.head? s) := by
  induction rest generalizing s front with
  | nil => exact ⟨h, .refl s⟩
  | cons e rest ih =>
    have hmem : e ∈ s.dependants m := by
      rw [hrest]
      exact List.mem_append_right _ List.mem_cons_self
    have hloaded := h.loaded_of_mem hmem
    have hnext : listNext ((s.setExported e.2 true).dependants m) e.1 = some rest.head? :=
      listNext_eq hrest (h.ids m)
    rw [List.length_cons, List.head?_cons, Modules.loadDependants,
      loadModule_of_loaded hn (h.known _ hloaded) hloaded, Modules.raiseExported, if_pos rfl, hnext]
    dsimp only
    have hrest' : (s.setExported e.2 true).dependants m = (front ++ [e]) ++ rest := by
      rw [List.append_assoc, List.singleton_append]
      exact hrest
    obtain ⟨hkeeps, hgrown⟩ := ih h.setExported _ hrest'
    exact ⟨hkeeps, (Grown.setExported hloaded).trans hgrown⟩

/-! ### The end of a load -/

/-- The flag is set where it was cleared. -/
theorem setLoaded_back (h : s.loaded m = true) (b : Bool) :
    ((s.setLoaded m false).raiseExported m b).setLoaded m true = s.raiseExported m b := by
  have heq : Function.update (Function.update s.loaded m false) m true = s.loaded := by
    rw [Function.update_idem, ← h, Function.update_eq_self]
  cases b with
  | false => exact congrArg (fun loaded => { s with loaded := loaded }) heq
  | true => exact congrArg (fun loaded => { s.setExported m true with loaded := loaded }) heq

/-- A load has ended well. -/
structure Loaded (D : M → List M) (p : M → Option (List M)) (s : Modules M) (m : M)
    (r : Modules M × Bool) : Prop where
  well : r.2 = true
  keeps : Loading D p r.1
  grown : Grown s r.1
  self : r.1.loaded m = true

/-- A module that is content is loaded for good. -/
theorem Loading.startModule (hn : 0 < n) (h : Loading D p (s.setLoaded m true))
    (haccepts : w.accepts m = true) :
    Loaded D p (s.setLoaded m true) m (Modules.startModule w (loadModule D w n) s m f) := by
  have hself := loaded_setLoaded_self s m true
  rw [Modules.startModule, haccepts, if_neg (by decide)]
  generalize s.setLoaded m true = u at h hself ⊢
  have hflags := (h.raiseExported m f.exported).raiseReloading m f.reloading
  have hgrown := (Grown.raiseExported hself f.exported).trans (.raiseReloading _ m f.reloading)
  generalize (u.raiseExported m f.exported).raiseReloading m f.reloading = t at hflags hgrown ⊢
  split
  · have hcleared := hflags.setReloading (m := m) (b := false)
    have hgrown' : Grown u (t.setReloading m false) := hgrown.trans { Grown.refl t with }
    dsimp only
    generalize t.setReloading m false = t' at hcleared hgrown' ⊢
    obtain ⟨hkeeps, hwalk⟩ := hcleared.loadDependants (w := w) hn (m := m) [] rfl
    have hall := hgrown'.trans hwalk
    exact ⟨rfl, hkeeps, hall, hall.loaded m hself⟩
  · exact ⟨rfl, hflags, hgrown, hgrown.loaded m hself⟩

/-- A module whose dependencies are loaded is opened, and its flag is set for good. -/
theorem Loading.openModule (hn : 0 < n) (h : Loading D p s) (hloaded : s.loaded m = true)
    (hopens : w.opens m = true) (hheader : w.header m = true) (haccepts : w.accepts m = true) :
    Loaded D p s m (Modules.openModule w (loadModule D w n) (s.setLoaded m false) m f) := by
  have hclear : (s.setLoaded m false).loaded m = false := loaded_setLoaded_self s m false
  rw [Modules.openModule, hclear, Bool.and_false, if_neg Bool.false_ne_true, openFile, hopens,
    if_neg (by decide), loaded_raiseExported, hclear, if_neg Bool.false_ne_true, hheader,
    if_neg (by decide)]
  have hback := setLoaded_back hloaded f.exported
  have hstart := Loading.startModule (s := (s.setLoaded m false).raiseExported m f.exported)
    (f := f) hn (hback ▸ h.raiseExported m f.exported) haccepts
  rw [hback] at hstart
  exact ⟨hstart.well, hstart.keeps, (Grown.raiseExported hloaded _).trans hstart.grown, hstart.self⟩

/-- A module without dependencies is opened, or is left as it was. -/
theorem Loading.openModule_of_nil (hn : 0 < n) (h : Loading D p s) (hm : s.loaded m = false)
    (hnames : m ∈ s.names) (hD : D m = []) :
    Loading D p (Modules.openModule w (loadModule D w n) s m f).1 := by
  have hp : p m = none := by
    by_contra hp
    cases hm.symm.trans (h.mid m hp)
  have hflag := h.raiseExported m f.exported
  have hm' : (s.raiseExported m f.exported).loaded m = false := by rwa [loaded_raiseExported]
  have hnames' : m ∈ (s.raiseExported m f.exported).names := by
    cases f.exported <;> exact hnames
  rw [Modules.openModule, hm, Bool.and_false, if_neg Bool.false_ne_true, openFile]
  generalize s.raiseExported m f.exported = u at hflag hm' hnames' ⊢
  have hbegin := hflag.begin hm' hnames' (hD ▸ List.nodup_nil)
  have harrive : Loading D p (u.setLoaded m true) := by
    rw [← hD] at hbegin
    exact hbegin.arrive hp
  split
  · exact hflag
  · rw [hm', if_neg Bool.false_ne_true]
    split
    · exact hflag
    · cases haccepts : w.accepts m with
      | true => exact (harrive.startModule hn haccepts).keeps
      | false =>
        rw [Modules.startModule, haccepts, if_pos Bool.not_false]
        have heq : Function.update (Function.update u.loaded m true) m false = u.loaded := by
          rw [Function.update_idem, ← hm', Function.update_eq_self]
        refine hflag.congr ?_ ?_ ?_ ?_ ?_
        · cases f.exported <;> cases f.reloading <;> rfl
        · cases f.exported <;> cases f.reloading <;> rfl
        · cases f.exported <;> cases f.reloading <;> exact heq
        · cases f.exported <;> cases f.reloading <;> rfl
        · cases f.exported <;> cases f.reloading <;> rfl

/-! ### A load -/

/-- The modules that are not loaded. -/
def unloadedCount [Fintype M] (s : Modules M) : ℕ :=
  (Finset.univ.filter fun x => s.loaded x = false).card

variable [Fintype M] {R : M → Prop}

theorem unloadedCount_setLoaded (h : s.loaded m = false) :
    unloadedCount (s.setLoaded m true) < unloadedCount s := by
  refine Finset.card_lt_card ⟨fun x hx => ?_, fun hsub => ?_⟩
  · rw [Finset.mem_filter] at hx ⊢
    by_cases hxm : x = m
    · exact ⟨Finset.mem_univ x, hxm ▸ h⟩
    · rwa [loaded_setLoaded_of_ne s true hxm] at hx
  · have hm := hsub (Finset.mem_filter.mpr ⟨Finset.mem_univ m, h⟩)
    rw [Finset.mem_filter, loaded_setLoaded_self] at hm
    cases hm.2

omit [DecidableEq M] in
theorem Grown.unloadedCount_le (h : Grown s s') : unloadedCount s' ≤ unloadedCount s := by
  refine Finset.card_le_card fun x hx => ?_
  rw [Finset.mem_filter] at hx ⊢
  refine ⟨Finset.mem_univ x, Bool.eq_false_iff.mpr fun hxs => ?_⟩
  cases (h.loaded x hxs).symm.trans hx.2

/-- The dependencies are loaded one after another. -/
theorem Loading.loadDeps
    (hload : ∀ {p s y f}, Loading D p s → Fit D w R s → R y → y ∈ s.names ∨ f.create = true →
      s.exported y = false → unloadedCount s < n → Loaded D p s y (loadModule D w n s y f))
    {done : List M} (rest : List M) (h : Loading D (Function.update p m (some done)) s)
    (hD : D m = done ++ rest) (hfit : Fit D w R s) (hR : ∀ y ∈ D m, R y)
    (hcount : unloadedCount s < n) :
    Loaded D (Function.update p m (some (D m))) s m
      (Modules.loadDeps (loadModule D w n) m f rest s) := by
  induction rest generalizing s done with
  | nil =>
    rw [List.append_nil] at hD
    rw [hD]
    exact ⟨rfl, h, .refl s, h.mid m (by simp)⟩
  | cons y rest ih =>
    have hy : R y := hR y (by rw [hD]; simp)
    have hD' : D m = (done ++ [y]) ++ rest := by rw [hD]; simp
    have hadd : ∀ u, Grown u (u.addDependant m y) := fun u => { Grown.refl u with }
    rw [Modules.loadDeps]
    by_cases hload' : y ∉ s.names ∨ s.exported y = false
    · rw [if_pos hload']
      have hexported : s.exported y = false := by
        rcases hload' with hmem | hexported
        · refine hfit.exported y hy (Bool.eq_false_iff.mpr fun hl => hmem (h.known y hl))
        · exact hexported
      have hr := hload (f := { f with create := true, exported := true }) h hfit hy (.inr rfl)
        hexported hcount
      have hgrown := hr.grown.trans (hadd _)
      rw [if_pos hr.well]
      have hrest := ih (hr.keeps.addDependant hr.self) hD' (hfit.grown hgrown)
        (Nat.lt_of_le_of_lt hgrown.unloadedCount_le hcount)
      exact ⟨hrest.well, hrest.keeps, hgrown.trans hrest.grown, hrest.self⟩
    · rw [if_neg hload']
      obtain ⟨-, hexported⟩ := not_or.mp hload'
      have hloaded : s.loaded y = true := by
        by_contra hne
        exact hexported (hfit.exported y hy (Bool.eq_false_iff.mpr hne))
      dsimp only
      rw [if_pos rfl]
      have hrest := ih (h.addDependant hloaded) hD' (hfit.grown (hadd s))
        (Nat.lt_of_le_of_lt (hadd s).unloadedCount_le hcount)
      exact ⟨hrest.well, hrest.keeps, (hadd s).trans hrest.grown, hrest.self⟩

/-- A load that has set out ends well, if loads one call deeper do. -/
theorem Loading.loadModule_of_begin
    (hload : ∀ {p s y f}, Loading D p s → Fit D w R s → R y → y ∈ s.names ∨ f.create = true →
      s.exported y = false → unloadedCount s < n → Loaded D p s y (loadModule D w n s y f))
    (h : Loading D p s) (hthere : ¬ (m ∉ s.names ∧ (f.create = false ∨ w.file m = false)))
    (hm : s.loaded m = false) (hloads : Loads D w s m) (hR : ∀ y ∈ D m, R y)
    (hfit : Fit D w R ((s.enter m).setLoaded m true)) (hcount : unloadedCount s < n + 1) :
    Loaded D p s m (Modules.loadModule D w (n + 1) s m f) := by
  have henter := h.enter m
  have hm' : (s.enter m).loaded m = false := by rwa [loaded_enter]
  have hp : p m = none := by
    by_contra hp
    cases hm'.symm.trans (henter.mid m hp)
  have hcount' : unloadedCount ((s.enter m).setLoaded m true) < n := by
    have hlt := unloadedCount_setLoaded hm'
    have hle := (Grown.enter s m).unloadedCount_le
    omega
  have hbegin := henter.begin hm' (mem_enter.mpr (.inr rfl)) hloads.nodup
  have hdeps := hbegin.loadDeps (f := f) hload (D m) rfl hfit hR hcount'
  rw [Modules.loadModule, if_neg hthere, if_neg h.names]
  dsimp only
  rw [hm', if_neg Bool.false_ne_true, if_pos hdeps.well]
  have harrive := hdeps.keeps.arrive hp
  have hopen := harrive.openModule (f := f) (Nat.lt_of_le_of_lt (Nat.zero_le _) hcount')
    hdeps.self hloads.opens hloads.header hloads.accepts
  have hgrown := ((Grown.enter s m).trans (.setLoaded _ m)).trans (hdeps.grown.trans hopen.grown)
  exact ⟨hopen.well, hopen.keeps, hgrown, hopen.self⟩

/-- A load of what is fit ends well, and keeps what holds on the way. -/
theorem Loading.loadModule (h : Loading D p s) (hfit : Fit D w R s) (hm : R m)
    (hfind : m ∈ s.names ∨ f.create = true) (hexported : s.exported m = false)
    (hcount : unloadedCount s < n) : Loaded D p s m (Modules.loadModule D w n s m f) := by
  induction n generalizing p s m f with
  | zero => cases hcount
  | succ n ih =>
    cases hloaded : s.loaded m with
    | true =>
      have hnames := h.known m hloaded
      have hopens := (hfit.opens m hm hloaded).resolve_left (by simp [hexported])
      rw [Modules.loadModule, if_neg (fun hand => hand.1 hnames), if_neg h.names,
        enter_of_mem hnames]
      dsimp only
      rw [if_pos hloaded]
      have heq : (Modules.openModule w (Modules.loadModule D w n) s m f).1 =
          s.raiseExported m f.exported := openModule_of_loaded hloaded
      refine ⟨openModule_of_loaded_snd hloaded hopens, ?_, ?_, ?_⟩
      · exact heq ▸ h.raiseExported m f.exported
      · exact heq ▸ Grown.raiseExported hloaded f.exported
      · rw [heq, loaded_raiseExported]
        exact hloaded
    | false =>
      have hloads := hfit.loads m hm hloaded
      have hthere : ¬ (m ∉ s.names ∧ (f.create = false ∨ w.file m = false)) := by
        rintro ⟨hmem, hbad⟩
        rw [hfind.resolve_left hmem, hloads.file.resolve_left hmem] at hbad
        exact hbad.elim Bool.noConfusion Bool.noConfusion
      exact h.loadModule_of_begin ih hthere hloaded hloads (hfit.deps m hm hloaded)
        (hfit.grown ((Grown.enter s m).trans (.setLoaded _ m))) hcount

end Modules

end Ithildin
