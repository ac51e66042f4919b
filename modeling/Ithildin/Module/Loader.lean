import Ithildin.Lib.Run
import Mathlib.Data.Fintype.Card
import Mathlib.Data.List.Nodup
import Mathlib.Logic.Function.Basic
import Mathlib.Logic.Relation

/-!
# Loading and unloading modules

Each module has a list of the modules that depend on it. Loading a module loads what it depends on
and puts it on those lists; unloading it unloads the modules on its list first; a reload unloads and
loads it again, without taking it off the lists.

* `Modules`: the flags of the modules, and their lists of dependants;
* `loadModule`, `unloadModule`, `reloadModule`, `doReload`: the functions of `module.c`;
* `Sound`: what a loaded module depends on is loaded, and each list is as it should be.

A module stands for its name, of which there are finitely many; `D` is what the dependency files
say, and `World` what else is found when a module is to be loaded.
-/

namespace Ithildin

/-- What is found outside: the files of modules, and whether they open, have a header of a fit
version, and are content with being loaded. -/
structure World (M : Type) where
  file : M → Bool
  opens : M → Bool
  header : M → Bool
  accepts : M → Bool

/-- The flags that `load_module` is called with. -/
structure LoadFlags where
  create : Bool
  exported : Bool
  reloading : Bool

/-- `me.modules`: the names on the list, the flags `LOADED`, `DEPENDLOAD` and `RELOADING`, and the
list of dependants, each element with the memory it is in. Besides, the modules that have been
closed, and whether there was an access through a pointer that is none, or a walk without end. -/
structure Modules (M : Type) where
  names : List M
  loaded : M → Bool
  exported : M → Bool
  reloading : M → Bool
  dependants : M → List (ℕ × M)
  fresh : ℕ
  closed : List M
  fault : Bool

namespace Modules

variable {M : Type} [DecidableEq M] (D : M → List M) (w : World M)

/-- `LIST_NEXT`, of an element that is in the list. -/
def listNext (l : List (ℕ × M)) (mdep : ℕ) : Option (Option (ℕ × M)) :=
  match l.dropWhile fun e => e.1 != mdep with
  | [] => none
  | _ :: rest => some rest.head?

/-- The flag `LOADED` is set or cleared. -/
def setLoaded (s : Modules M) (m : M) (b : Bool) : Modules M :=
  { s with loaded := Function.update s.loaded m b }

@[simp] theorem loaded_setLoaded_self (s : Modules M) (m : M) (b : Bool) :
    (s.setLoaded m b).loaded m = b :=
  Function.update_self ..

theorem loaded_setLoaded_of_ne {x m : M} (s : Modules M) (b : Bool) (h : x ≠ m) :
    (s.setLoaded m b).loaded x = s.loaded x :=
  Function.update_of_ne h ..

/-- The flag `DEPENDLOAD` is set or cleared. -/
def setExported (s : Modules M) (m : M) (b : Bool) : Modules M :=
  { s with exported := Function.update s.exported m b }

/-- The flag `RELOADING` is set or cleared. -/
def setReloading (s : Modules M) (m : M) (b : Bool) : Modules M :=
  { s with reloading := Function.update s.reloading m b }

/-- `DEPENDLOAD` is set if it is among the flags given. -/
def raiseExported (s : Modules M) (m : M) (b : Bool) : Modules M :=
  if b then s.setExported m true else s

/-- `RELOADING` is set if it is among the flags given. -/
def raiseReloading (s : Modules M) (m : M) (b : Bool) : Modules M :=
  if b then s.setReloading m true else s

@[simp] theorem loaded_raiseExported (s : Modules M) (m : M) (b : Bool) :
    (s.raiseExported m b).loaded = s.loaded := by
  cases b <;> rfl

@[simp] theorem loaded_raiseReloading (s : Modules M) (m : M) (b : Bool) :
    (s.raiseReloading m b).loaded = s.loaded := by
  cases b <;> rfl

@[simp] theorem dependants_raiseExported (s : Modules M) (m : M) (b : Bool) :
    (s.raiseExported m b).dependants = s.dependants := by
  cases b <;> rfl

@[simp] theorem dependants_raiseReloading (s : Modules M) (m : M) (b : Bool) :
    (s.raiseReloading m b).dependants = s.dependants := by
  cases b <;> rfl

/-- A module is on the list of modules from now on. -/
def enter (s : Modules M) (m : M) : Modules M :=
  if m ∈ s.names then s else { s with names := s.names ++ [m] }

/-- A new element of the list of `y`. -/
def addDependant (s : Modules M) (m y : M) : Modules M :=
  { s with
    dependants := Function.update s.dependants y ((s.fresh, m) :: s.dependants y)
    fresh := s.fresh + 1 }

/-- Something that must not happen. -/
def fail (s : Modules M) : Modules M := { s with fault := true }

/-- The loop of `load_module` over the dependency file. -/
def loadDeps (load : Modules M → M → LoadFlags → Modules M × Bool) (m : M) (f : LoadFlags) :
    List M → Modules M → Modules M × Bool
  | [], s => (s, true)
  | y :: ys, s =>
      let r := if y ∉ s.names ∨ s.exported y = false
        then load s y { f with create := true, exported := true } else (s, true)
      if r.2 then loadDeps load m f ys (r.1.addDependant m y) else (r.1, false)

/-- The walk over the dependants at the end of a reload. -/
def loadDependants (load : Modules M → M → LoadFlags → Modules M × Bool) (m : M) :
    ℕ → Option (ℕ × M) → Modules M → Modules M
  | _, none, s => s
  | 0, some _, s => s.fail
  | n + 1, some (mdep, d), s =>
      let s' := (load s d ⟨false, true, s.reloading d⟩).1
      match listNext (s'.dependants m) mdep with
      | none => s'.fail
      | some next => loadDependants load m n next s'

/-- `load_module`, when a fit header was found: the flags are set, and the module is asked. -/
def startModule (load : Modules M → M → LoadFlags → Modules M × Bool) (s : Modules M) (m : M)
    (f : LoadFlags) : Modules M × Bool :=
  let s := ((s.setLoaded m true).raiseExported m f.exported).raiseReloading m f.reloading
  if !w.accepts m then (s.setLoaded m false, false)
  else if s.reloading m then
    let s := s.setReloading m false
    (loadDependants load m (s.dependants m).length (s.dependants m).head? s, true)
  else (s, true)

/-- `load_module`, from the `dlopen` on. -/
def openFile (load : Modules M → M → LoadFlags → Modules M × Bool) (s : Modules M) (m : M)
    (f : LoadFlags) : Modules M × Bool :=
  if !w.opens m then (s, false)
  else if s.loaded m then (s, true)
  else if !w.header m then (s, false)
  else startModule w load s m f

/-- `load_module`, when the dependencies have been loaded. -/
def openModule (load : Modules M → M → LoadFlags → Modules M × Bool) (s : Modules M) (m : M)
    (f : LoadFlags) : Modules M × Bool :=
  if f.exported && s.exported m && s.loaded m then (s, true)
  else openFile w load (s.raiseExported m f.exported) m f

/-- `load_module`, so many calls deep. The flag `LOADED` stands while the dependencies are loaded,
and stays when one of them fails. -/
def loadModule : ℕ → Modules M → M → LoadFlags → Modules M × Bool
  | 0, s, _, _ => (s.fail, false)
  | n + 1, s, m, f =>
      if m ∉ s.names ∧ (f.create = false ∨ w.file m = false) then (s, false)
      else if s.names = [] then (s.fail, false)
      else
        let s := s.enter m
        if s.loaded m then openModule w (loadModule n) s m f
        else
          let r := loadDeps (loadModule n) m f (D m) (s.setLoaded m true)
          if r.2 then openModule w (loadModule n) (r.1.setLoaded m false) m f else (r.1, false)

/-- An element is taken off the list of a module. -/
def freeDependant (s : Modules M) (m : M) (mdep : ℕ) : Modules M :=
  { s with
    dependants := Function.update s.dependants m
      ((s.dependants m).filter fun e => e.1 != mdep) }

/-- The loop of `unload_module` over the dependants, with the element it is at. -/
def unloadLoop (unload : Modules M → M → Modules M × Bool) (m : M) :
    ℕ → Option (ℕ × M) → Modules M → Modules M
  | _, none, s => s
  | 0, some _, s => s.fail
  | n + 1, some (mdep, d), s =>
      if s.reloading m then
        match listNext (s.dependants m) mdep with
        | none => s.fail
        | some next =>
            let s' := if s.loaded d then (unload (s.setReloading d true) d).1 else s
            unloadLoop unload m n next s'
      else
        let s' := if s.loaded d then (unload s d).1 else s.freeDependant m mdep
        unloadLoop unload m n (s'.dependants m).head? s'

/-- A module is taken off all lists. -/
def dropDependant (s : Modules M) (m : M) : Modules M :=
  { s with dependants := fun y => (s.dependants y).filter fun e => e.2 != m }

/-- `unload_module`, so many calls deep. -/
def unloadModule : ℕ → Modules M → M → Modules M × Bool
  | 0, s, _ => (s.fail, false)
  | n + 1, s, m =>
      if m ∉ s.names then (s, false)
      else if s.loaded m = false then (s, true)
      else
        let s := (s.setLoaded m false).setExported m false
        let s := unloadLoop (unloadModule n) m (2 * (s.dependants m).length)
          (s.dependants m).head? s
        let s := { s with closed := s.closed ++ [m] }
        (if s.reloading m then s else s.dropDependant m, true)

/-- `reload_module`. -/
def reloadModule (s : Modules M) (m : M) : Modules M :=
  if m ∈ s.names then s.setReloading m true else s

variable [Fintype M]

/-- As deep as the calls go. -/
def depth (M : Type) [Fintype M] : ℕ := Fintype.card M + 1

/-- What `do_module_reloads` does with each module of the list. -/
def doReload (s : Modules M) (m : M) : Modules M :=
  if m ∈ s.names ∧ s.reloading m then
    let s := if s.loaded m then (unloadModule (depth M) s m).1 else s
    (loadModule D w (depth M) s m ⟨false, s.exported m, s.reloading m⟩).1
  else s

/-- A module comes into the list by the configuration, perhaps with `export`; a module is to be
loaded, unloaded or reloaded; a reload is done. -/
inductive Action (M : Type)
  | configure (m : M) (exported : Bool)
  | load (w : World M) (m : M) (f : LoadFlags)
  | unload (m : M)
  | reload (m : M)
  | doReload (w : World M) (m : M)

/-- A step. -/
def step (s : Modules M) : Action M → Option (Modules M)
  | .configure m exported =>
      some (if exported then (s.enter m).setExported m true else s.enter m)
  | .load w m f => some (loadModule D w (depth M) s m f).1
  | .unload m => some (unloadModule (depth M) s m).1
  | .reload m => some (s.reloadModule m)
  | .doReload w m => some (s.doReload D w m)

/-- No modules. -/
def start : Modules M where
  names := []
  loaded := fun _ => false
  exported := fun _ => false
  reloading := fun _ => false
  dependants := fun _ => []
  fresh := 0
  closed := []
  fault := false

/-- How often a module is on the list of another. -/
def links (s : Modules M) (x y : M) : ℕ := ((s.dependants y).map Prod.snd).count x

/-- No pointer was wrong; what a loaded module depends on is loaded; and on the list of a module are
just the loaded ones that depend on it, each once. -/
structure Sound (s : Modules M) : Prop where
  safe : s.fault = false
  deps : ∀ x, s.loaded x = true → ∀ y ∈ D x, s.loaded y = true
  lists : ∀ x y, s.links x y = if s.loaded x = true ∧ y ∈ D x then 1 else 0

/-- A module needs another: it depends on it, or on one that needs it. -/
def Needs : M → M → Prop := Relation.ReflTransGen fun x y => y ∈ D x

/-- A load of a module comes to another: it goes on from those that are not loaded. -/
def ComesTo (s : Modules M) : M → M → Prop :=
  Relation.ReflTransGen fun x y => s.loaded x = false ∧ y ∈ D x

/-- There is such a module, it opens, its header is fit, it is content with being loaded, and its
dependency file names nothing twice. -/
structure Loads (s : Modules M) (x : M) : Prop where
  file : x ∈ s.names ∨ w.file x = true
  opens : w.opens x = true
  header : w.header x = true
  accepts : w.accepts x = true
  nodup : (D x).Nodup

/-- What a load of `m` comes to can be loaded, and is not marked as exported before it is; or it is
loaded, and it is exported, or opens again. -/
structure Ready (s : Modules M) (m x : M) : Prop where
  loads : s.loaded x = false → Loads D w s x
  exported : s.loaded x = false → x ≠ m → s.exported x = false
  opens : s.loaded x = true → s.exported x = true ∨ w.opens x = true

/-- A load ends well, or stops where nothing has been done: the module is loaded, or has no
dependencies, or all that the load comes to is ready. -/
def LoadFit (s : Modules M) (m : M) : Prop :=
  s.loaded m = true ∨ D m = [] ∨ ∀ x, ComesTo D s m x → Ready D w s m x

/-- A load is of a module that is not there, or it is fit. Among what is unloaded, a module that
waits for a reload has no dependants, and what it depends on is unloaded too. What is reloaded
neither has dependants nor depends on anything, or is not loaded and can be. -/
def Suitable (s : Modules M) : Action M → Prop
  | .configure _ _ => True
  | .load w m f =>
      (m ∉ s.names ∧ (f.create = false ∨ w.file m = false)) ∨ s.names ≠ [] ∧ LoadFit D w s m
  | .unload m => ∀ x, s.loaded x = true → Needs D x m → s.reloading x = true →
      s.dependants x = [] ∧ ∀ y ∈ D x, Needs D y m
  | .reload _ => True
  | .doReload w m => s.reloading m = true →
      if s.loaded m then D m = [] ∧ s.dependants m = [] else LoadFit D w s m

end Modules

end Ithildin
