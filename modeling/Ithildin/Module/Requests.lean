import Ithildin.Module.Unloading

/-!
# What holds between requests

Between requests nothing is on the way: a module is on lists if it is loaded, and then on those of
what it depends on, each once.

* `Resting`: what holds then, with what is known of the memory of the lists;
* `Resting.step`: suitable requests keep it;
* `sound_of_requests`: after suitable requests the modules are as they should be, and an unload
  comes after those of all that need the module.
-/

namespace Ithildin

namespace Modules

variable {M : Type} [DecidableEq M] {D : M → List M} {w : World M} {s s' : Modules M} {m : M}
  {f : LoadFlags}

/-- What holds between requests. -/
structure Resting (D : M → List M) (s : Modules M) : Prop where
  safe : s.fault = false
  known : ∀ x, s.loaded x = true → x ∈ s.names
  links : ∀ x y, s.links x y = if s.loaded x then (D x).count y else 0
  deps : ∀ x, s.loaded x = true → ∀ y ∈ D x, s.loaded y = true
  nodup : ∀ x, s.loaded x = true → (D x).Nodup
  ids : ∀ y, ((s.dependants y).map Prod.fst).Nodup
  fresh : ∀ y, ∀ e ∈ s.dependants y, e.1 < s.fresh

theorem Resting.sound (h : Resting D s) : Sound D s where
  safe := h.safe
  deps := h.deps
  lists x y := by
    rw [h.links]
    cases hx : s.loaded x with
    | false => rw [if_neg Bool.false_ne_true, if_neg fun hand => Bool.false_ne_true hand.1]
    | true =>
      rw [if_pos rfl, List.Nodup.count (h.nodup x hx)]
      simp only [true_and]

omit [DecidableEq M] in
theorem due_none (x : M) : due D (fun _ => none) s x = if s.loaded x then D x else [] := rfl

theorem Resting.loading (h : Resting D s) (hnames : s.names ≠ []) :
    Loading D (fun _ => none) s where
  safe := h.safe
  names := hnames
  known := h.known
  mid x hx := absurd rfl hx
  links x y := by
    rw [h.links, due_none]
    split <;> rfl
  deps x y hy := by
    rw [due_none] at hy
    split at hy
    · rename_i hx
      exact h.deps x hx y hy
    · cases hy
  nodup := h.nodup
  ids := h.ids
  fresh := h.fresh

theorem Loading.resting (h : Loading D (fun _ => none) s) : Resting D s where
  safe := h.safe
  known := h.known
  links x y := by
    rw [h.links, due_none]
    split <;> rfl
  deps x hx y hy := h.deps x y (by rwa [due_none, if_pos hx])
  nodup := h.nodup
  ids := h.ids
  fresh := h.fresh

theorem Resting.unloading (h : Resting D s) (U : M → Prop) :
    Unloading D U (fun _ => False) s where
  safe := h.safe
  known := h.known
  out x hx := hx.elim
  links x y hx := by rw [h.links, if_pos hx]
  absent x y hx _ hpos := by
    rw [h.links, hx] at hpos
    exact absurd rfl hpos
  deps x hx y hy := .inl (h.deps x hx y hy)
  ids := h.ids

/-- What a loaded module needs is loaded. -/
theorem Unloading.loaded_of_needs {U : M → Prop} (h : Unloading D U (fun _ => False) s) {x : M}
    (hx : s.loaded x = true) (hneeds : Needs D x m) : s.loaded m = true := by
  induction hneeds with
  | refl => exact hx
  | tail _ hstep ih => exact (h.deps _ ih _ hstep).resolve_right id

/-- At the end of an unload nothing is left on lists. -/
theorem Unloading.resting {seg : List M} (h : Unloading D (Needs D · m) (fun _ => False) s')
    (hm : s'.loaded m = false) (hs : Resting D s) (hdropped : Dropped s s' seg) :
    Resting D s' where
  safe := h.safe
  known := h.known
  links x y := by
    cases hx : s'.loaded x with
    | true => exact h.links x y hx
    | false =>
      rw [if_neg Bool.false_ne_true]
      by_contra hpos
      obtain ⟨hneeds, hy⟩ := h.absent x y hx id hpos
      cases hm.symm.trans (h.loaded_of_needs (hy.resolve_right id) hneeds)
  deps x hx y hy := (h.deps x hx y hy).resolve_right id
  nodup x hx := hs.nodup x (hdropped.mono x hx)
  ids := h.ids
  fresh y e he := by
    rw [hdropped.fresh]
    exact hs.fresh y e ((hdropped.lists y).subset he)

/-- A module that is known. -/
theorem Resting.enter (h : Resting D s) (m : M) : Resting D (s.enter m) where
  safe := by rw [fault_enter, h.safe]
  known x hx := by
    rw [loaded_enter] at hx
    exact mem_enter.mpr (.inl (h.known x hx))
  links x y := by rw [links_enter, h.links, loaded_enter]
  deps := by rw [loaded_enter]; exact h.deps
  nodup := by rw [loaded_enter]; exact h.nodup
  ids := by rw [dependants_enter]; exact h.ids
  fresh := by rw [dependants_enter, fresh_enter]; exact h.fresh

variable [Fintype M]

/-- All that needs a module is unloaded before it is. -/
def UnloadsFirst (D : M → List M) (s s' : Modules M) (m : M) : Prop :=
  s'.loaded m = false ∧ ∃ seg, s'.closed = s.closed ++ seg ++ [m] ∧
    ∀ x, s.loaded x = true → Needs D x m → x ≠ m → x ∈ seg ∧ s'.loaded x = false

/-- What is unloaded waits for no reload that would leave it on lists. -/
theorem Resting.unload (h : Resting D s) (hsuit : Suitable D s (.unload m))
    (hm : s.loaded m = true) :
    Resting D (unloadModule (depth M) s m).1 ∧
      UnloadsFirst D s (unloadModule (depth M) s m).1 m ∧
      (unloadModule (depth M) s m).1.names = s.names := by
  have hleaves : Leaves D (Needs D · m) s :=
    { deps := fun x y hy hxy => Relation.ReflTransGen.head hxy hy
      nil := fun x hx hneeds hr => (hsuit x hx hneeds hr).1
      mem := fun x hx hneeds hr => (hsuit x hx hneeds hr).2 }
  have hcount : loadedCount s < depth M := Nat.lt_succ_of_le (Finset.card_le_univ _)
  obtain ⟨hkeeps, hgone, seg, hdropped⟩ :=
    (h.unloading _).unloadModule hleaves .refl hm hcount
  refine ⟨hkeeps.resting hgone h hdropped, ⟨hgone, seg, ?_, fun x hx hneeds hxm => ?_⟩,
    hdropped.names⟩
  · rw [hdropped.closed, List.append_assoc]
  · have hgone' : (unloadModule (depth M) s m).1.loaded x = false := by
      by_contra hne
      cases hgone.symm.trans (hkeeps.loaded_of_needs (Bool.not_eq_false _ ▸ hne) hneeds)
    have hmem := hdropped.gone x hx hgone'
    exact ⟨(List.mem_append.mp hmem).resolve_right fun hx' => hxm (List.mem_singleton.mp hx'),
      hgone'⟩

/-- A load that is fit. -/
theorem Resting.load (h : Resting D s) (hnames : s.names ≠ [])
    (hthere : ¬ (m ∉ s.names ∧ (f.create = false ∨ w.file m = false)))
    (hfit : LoadFit D w s m) : Resting D (loadModule D w (depth M) s m f).1 := by
  have hload := h.loading hnames
  have hn : 0 < Fintype.card M := Fintype.card_pos_iff.mpr ⟨m⟩
  cases hm : s.loaded m with
  | true =>
    rw [depth, loadModule_of_loaded (Nat.succ_pos _) (h.known m hm) hm]
    exact (hload.raiseExported m _).resting
  | false =>
    have hm' : (s.enter m).loaded m = false := by rwa [loaded_enter]
    rcases hfit with hl | hD | hready
    · cases hm.symm.trans hl
    · rw [depth, loadModule, if_neg hthere, if_neg hnames]
      dsimp only
      rw [hm', if_neg Bool.false_ne_true, hD, loadDeps, if_pos rfl]
      have hback : (((s.enter m).setLoaded m true).setLoaded m false) = s.enter m := by
        have heq : Function.update (Function.update (s.enter m).loaded m true) m false =
            (s.enter m).loaded := by
          rw [Function.update_idem, ← hm', Function.update_eq_self]
        exact congrArg (fun loaded => { s.enter m with loaded := loaded }) heq
      dsimp only
      rw [hback]
      exact ((hload.enter m).openModule_of_nil hn hm' (mem_enter.mpr (.inr rfl)) hD).resting
    · have hloads := (hready m .refl).loads hm
      have hloaded : ∀ x, ((s.enter m).setLoaded m true).loaded x = true ↔
          x = m ∨ s.loaded x = true := by
        intro x
        by_cases hxm : x = m
        · subst hxm
          simp
        · rw [loaded_setLoaded_of_ne _ true hxm, loaded_enter, or_iff_right hxm]
      have hout : ∀ x, ((s.enter m).setLoaded m true).loaded x = false →
          x ≠ m ∧ s.loaded x = false := by
        intro x hx
        rw [← Bool.not_eq_true, hloaded, not_or, Bool.not_eq_true] at hx
        exact hx
      have hbegun : Fit D w (ComesTo D s m) ((s.enter m).setLoaded m true) :=
        { deps := fun x hx hx' y hy => hx.tail ⟨(hout x hx').2, hy⟩
          loads := fun x hx hx' =>
            let hl := (hready x hx).loads (hout x hx').2
            { hl with file := hl.file.imp_left fun hmem => mem_enter.mpr (.inl hmem) }
          exported := fun x hx hx' => by
            change (s.enter m).exported x = false
            rw [exported_enter]
            exact (hready x hx).exported (hout x hx').2 (hout x hx').1
          opens := fun x hx hx' => by
            change (s.enter m).exported x = true ∨ _
            rw [exported_enter]
            rcases (hloaded x).mp hx' with rfl | hx'
            · exact .inr hloads.opens
            · exact (hready x hx).opens hx' }
      have hdone := hload.loadModule_of_begin (f := f)
        (fun hl hfit' hR hfind hexported hcount =>
          hl.loadModule hfit' hR hfind hexported hcount)
        hthere hm hloads (fun y hy => .single ⟨hm, hy⟩) hbegun
        (Nat.lt_succ_of_le (Finset.card_le_univ _))
      exact hdone.keeps.resting

theorem Resting.doReload (h : Resting D s) (hsuit : Suitable D s (.doReload w m)) :
    Resting D (s.doReload D w m) := by
  rw [Modules.doReload]
  split
  · rename_i hand
    obtain ⟨hnames, hr⟩ := hand
    have hfit := hsuit hr
    dsimp only
    cases hm : s.loaded m with
    | false =>
      rw [hm, if_neg Bool.false_ne_true] at hfit
      rw [if_neg Bool.false_ne_true]
      exact h.load (List.ne_nil_of_mem hnames) (fun hand => hand.1 hnames) hfit
    | true =>
      rw [hm, if_pos rfl] at hfit
      obtain ⟨hD, hnil⟩ := hfit
      have hunload : Suitable D s (.unload m) := by
        intro x hx hneeds hrx
        rcases Relation.ReflTransGen.cases_tail hneeds with heq | ⟨y, hxy, hy⟩
        · subst heq
          refine ⟨hnil, fun y hy => ?_⟩
          rw [hD] at hy
          cases hy
        · have hloaded := (h.unloading fun _ => True).loaded_of_needs hx hxy
          have hpos : 0 < s.links y m := by
            rw [h.links, if_pos hloaded]
            exact List.count_pos_iff.mpr hy
          rw [Modules.links, hnil] at hpos
          cases hpos
      obtain ⟨hrest, -, hnames'⟩ := h.unload hunload hm
      rw [if_pos rfl]
      have hmem : m ∈ (unloadModule (depth M) s m).1.names := hnames' ▸ hnames
      exact hrest.load (List.ne_nil_of_mem hmem) (fun hand => hand.1 hmem) (.inr (.inl hD))
  · exact h

/-- Suitable requests keep what holds between them. -/
theorem Resting.step {a : Action M} (h : Resting D s) (hsuit : Suitable D s a)
    (hstep : step D s a = some s') : Resting D s' := by
  cases a with
  | configure m exported =>
    obtain rfl := Option.some.inj hstep
    cases exported with
    | true => exact { h.enter m with }
    | false => exact h.enter m
  | load w m f =>
    obtain rfl := Option.some.inj hstep
    by_cases hthere : m ∉ s.names ∧ (f.create = false ∨ w.file m = false)
    · change Resting D (loadModule D w (Fintype.card M + 1) s m f).1
      rw [loadModule, if_pos hthere]
      exact h
    · obtain ⟨hnames, hfit⟩ := hsuit.resolve_left hthere
      exact h.load hnames hthere hfit
  | unload m =>
    obtain rfl := Option.some.inj hstep
    cases hm : s.loaded m with
    | true => exact (h.unload hsuit hm).1
    | false =>
      change Resting D (unloadModule (Fintype.card M + 1) s m).1
      by_cases hmem : m ∈ s.names
      · rw [unloadModule, if_neg (not_not.mpr hmem), if_pos hm]
        exact h
      · rw [unloadModule, if_pos hmem]
        exact h
  | reload m =>
    obtain rfl := Option.some.inj hstep
    rw [reloadModule]
    split
    · exact { h with }
    · exact h
  | doReload w m =>
    obtain rfl := Option.some.inj hstep
    exact h.doReload hsuit

omit [Fintype M] in
theorem resting_start : Resting D start where
  safe := rfl
  known x hx := by cases hx
  links _ _ := rfl
  deps x hx := by cases hx
  nodup x hx := by cases hx
  ids _ := List.nodup_nil
  fresh y e he := by cases he

/-- After suitable requests all that a loaded module depends on is loaded, each list of dependants
is as it should be and no walk went astray; and if a module is unloaded next, all that needs it is
unloaded before. -/
theorem sound_of_requests {before behind : List (Action M)}
    (hall : Run.Along (step D) (Suitable D) start (before ++ behind))
    (hrun : Run.run (step D) start before = some s) :
    Sound D s ∧ ∀ m rest, behind = .unload m :: rest → s.loaded m = true →
      ∀ s', step D s (.unload m) = some s' → UnloadsFirst D s s' m := by
  have hrest : Resting D s :=
    Run.reached_of_along (fun _ _ _ h hsuit hstep => h.step hsuit hstep) resting_start hall hrun
  refine ⟨hrest.sound, fun m rest hbehind hm s' hstep => ?_⟩
  have hsuit : Suitable D s (.unload m) := by
    subst hbehind
    exact (Run.along_behind hall hrun).1
  obtain rfl := Option.some.inj hstep
  exact (hrest.unload hsuit hm).2.1

/-- Of two modules the second depends on the first. -/
def oneNeeded : Bool → List Bool := fun m => if m then [false] else []

/-- All files are there and open. -/
def goodWorld : World Bool := ⟨fun _ => true, fun _ => true, fun _ => true, fun _ => true⟩

/-- The modules are configured, and the second is loaded. -/
def configureLoad : List (Action Bool) :=
  [.configure false false, .configure true false, .load goodWorld true ⟨false, false, false⟩]

/-- If the first is unloaded then, the second is unloaded before. -/
theorem sound_of_requests_configureLoad :
    ∃ s s', Run.run (step oneNeeded) start configureLoad = some s ∧ Sound oneNeeded s ∧
      step oneNeeded s (.unload false) = some s' ∧ UnloadsFirst oneNeeded s s' false ∧
      s'.closed = [true, false] := by
  have hsuit : Run.Along (step oneNeeded) (Suitable oneNeeded) start
      (configureLoad ++ [.unload false]) := by
    refine ⟨trivial, fun s₁ hs₁ => ⟨trivial, fun s₂ hs₂ => ⟨?_, fun s₃ hs₃ => ⟨?_, ?_⟩⟩⟩⟩
    · obtain rfl := Option.some.inj hs₁
      obtain rfl := Option.some.inj hs₂
      refine .inr ⟨by decide +kernel, .inr (.inr fun x _ => ?_)⟩
      have hnodup : ∀ x, (oneNeeded x).Nodup := by decide
      refine ⟨fun _ => ⟨.inr rfl, rfl, rfl, rfl, hnodup x⟩, fun _ _ => ?_, fun _ => .inr rfl⟩
      cases x with
      | true => decide +kernel
      | false => decide +kernel
    · obtain rfl := Option.some.inj hs₁
      obtain rfl := Option.some.inj hs₂
      obtain rfl := Option.some.inj hs₃
      intro x _ _ hr
      cases x with
      | true => exact absurd hr (by decide +kernel)
      | false => exact absurd hr (by decide +kernel)
    · exact fun _ _ => trivial
  have hvals : (Run.run (step oneNeeded) start configureLoad).map (fun s => (s.loaded false,
      (unloadModule (depth Bool) s false).1.closed)) = some (true, [true, false]) := by
    decide +kernel
  obtain ⟨s, hrun, hval⟩ := Option.map_eq_some_iff.mp hvals
  obtain ⟨hloaded, hclosed⟩ := Prod.mk.inj hval
  obtain ⟨hsound, hfirst⟩ := sound_of_requests hsuit hrun
  exact ⟨s, _, hrun, hsound, rfl, hfirst false [] rfl hloaded _ rfl, hclosed⟩

/-- A module that depends on another is reloaded. -/
def loadReload : List (Action Bool) :=
  [.configure false false, .configure true false, .load goodWorld true ⟨false, false, false⟩,
    .reload true, .doReload goodWorld true]

/-- It is twice on the list of the other. -/
theorem module_requests_fails : ¬ ∀ (D : Bool → List Bool) (as : List (Action Bool))
    (s : Modules Bool), Run.run (step D) start as = some s → Sound D s := by
  intro hall
  have hlinks : (Run.run (step oneNeeded) start loadReload).map (fun s => s.links true false) =
      some 2 := by decide +kernel
  obtain ⟨s, hrun, htwo⟩ := Option.map_eq_some_iff.mp hlinks
  have hle := (hall oneNeeded loadReload s hrun).lists true false
  rw [htwo] at hle
  split at hle
  · cases hle
  · cases hle

end Modules

end Ithildin
