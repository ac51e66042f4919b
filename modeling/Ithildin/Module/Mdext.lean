import Ithildin.CString
import Ithildin.Lib.Layout
import Ithildin.Lib.Run
import Mathlib.Logic.Function.Basic

/-!
# Extension data

A module asks for room in every object of a kind with `create_mdext_item` and gives it back with
`destroy_mdext_item`. The objects are reached through an iterator like `channel_mdext_iter`, which
keeps a static flag `started` between its calls.

An object is a number with its block of bytes; an item has a number in place of its address. Bytes
that `realloc` adds are any. A write or read outside a block is a fault and ends the run. Two more
fields are not in the program: `want` has the bytes every object should hold for every item, and
`skipped` says that a pass over the objects has left some out.
-/

namespace Ithildin

namespace Mdext

open Layout

/-- `struct mdext_item`. -/
structure Item where
  /-- In place of the address. -/
  id : ℕ
  offset : ℤ
  size : ℕ
  deriving DecidableEq

/-- `struct mdext_header`, and the objects with their blocks. -/
structure State where
  size : ℕ
  items : List Item
  objs : List ℕ
  data : ℕ → Bytes
  /-- The static variable of the iterator. -/
  started : Bool
  fault : Bool
  want : ℕ → ℕ → Bytes
  skipped : Bool

/-- A number as a `size_t`. -/
def toSize (z : ℤ) : ℕ := (z % 2 ^ 64).toNat

/-- A number as an `int`. -/
def toInt (n : ℕ) : ℤ := (n : ℤ).bmod (2 ^ 32)

/-! ### The iterator -/

/-- One call of the iterator. What `*last` points to is given as the list from there on, nothing for
`NULL`. -/
def iter (objs : List ℕ) (started : Bool) : List ℕ → Option (ℕ × List ℕ) × Bool
  | o :: last => (some (o, last), started)
  | [] =>
    if started then (none, false)
    else
      match objs with
      | [] => (none, true)
      | o :: last => (some (o, last), true)

/-- `while ((data = iter(&rhold)) != NULL)`: the objects it comes to, and the flag at its end. -/
def visits (objs : List ℕ) : ℕ → Bool → List ℕ → List ℕ × Bool
  | 0, started, _ => ([], started)
  | n + 1, started, last =>
    match iter objs started last with
    | (none, started') => ([], started')
    | (some (o, last'), started') =>
      let rest := visits objs n started' last'
      (o :: rest.1, rest.2)

/-- A loop over the objects, which changes their blocks. -/
def forVisited (body : ℕ → Bytes → Option Bytes) (visited : List ℕ) (data : ℕ → Bytes) :
    Option (ℕ → Bytes) :=
  visited.foldlM (fun data o => (body o (data o)).map (Function.update data o)) data

/-- A pass over the objects. -/
def State.pass (s : State) (body : ℕ → Bytes → Option Bytes) : Option State :=
  let v := visits s.objs (s.objs.length + 1) s.started []
  (forVisited body v.1 s.data).map fun data =>
    { s with data := data, started := v.2, skipped := s.skipped || v.1 ≠ s.objs }

/-! ### Blocks -/

/-- `mdext_realloc` -/
def realloc (n : ℕ) (junk : ℕ → UInt8) (d : Bytes) : Bytes :=
  d.take n ++ (List.range (n - d.length)).map junk

/-- `memset(data + offset, 0, size)` -/
def memset (offset : ℤ) (size : ℕ) (d : Bytes) : Option Bytes :=
  if 0 ≤ offset ∧ offset.toNat + size ≤ d.length then
    some (d.take offset.toNat ++ (List.replicate size 0 ++ d.drop (offset.toNat + size)))
  else none

/-- `memmove(data + dst, data + src, len)` -/
def memmove (dst : ℤ) (src len : ℕ) (d : Bytes) : Option Bytes :=
  if 0 ≤ dst ∧ dst.toNat + len ≤ d.length ∧ src + len ≤ d.length then
    some (d.take dst.toNat ++ (slice src len d ++ d.drop (dst.toNat + len)))
  else none

/-! ### Items -/

/-- `create_mdext_item` -/
def State.createItem (s : State) (id size : ℕ) (junk : ℕ → ℕ → UInt8) : Option State :=
  let mip : Item := { id, offset := toInt s.size, size }
  let total := toSize (s.size + size)
  (State.pass { s with size := total } fun o d =>
    memset mip.offset size (realloc total (junk o) d)).map fun s' =>
      { s' with
        items := mip :: s'.items
        want := fun o i => if i = id then List.replicate size 0 else s'.want o i }

/-- The items behind `old` move down. -/
def moveDown (old mip : Item) : Item :=
  if old.offset < mip.offset then { mip with offset := toInt (toSize (mip.offset - old.size)) }
  else mip

/-- `destroy_mdext_item` -/
def State.destroyItem (s : State) (id : ℕ) (junk : ℕ → ℕ → UInt8) : Option State :=
  match s.items.find? (·.id = id) with
  | none => some s
  | some mip =>
    let stop := toSize (toSize mip.offset + mip.size)
    let total := toSize (s.size - mip.size)
    let moved :=
      if stop ≠ s.size then
        s.pass fun _ d => memmove mip.offset stop (toSize (s.size - toSize mip.offset - mip.size)) d
      else some s
    moved.bind fun s₁ =>
      (State.pass { s₁ with size := total } fun o d =>
          some (realloc total (junk o) d)).map fun s₂ =>
        { s₂ with items := (s₂.items.filter (·.id ≠ id)).map (moveDown mip) }

/-! ### What happens -/

/-- Items come and go, objects come and go, and a module writes to its item in an object. -/
inductive Action
  | create (id size : ℕ) (junk : ℕ → ℕ → UInt8)
  | destroy (id : ℕ) (junk : ℕ → ℕ → UInt8)
  | alloc (o : ℕ)
  | free (o : ℕ)
  | write (o id k : ℕ) (b : UInt8)

/-- The object `o` is made, with the block of `mdext_alloc`. -/
def State.alloc (s : State) (o : ℕ) : State :=
  { s with
    objs := o :: s.objs
    data := Function.update s.data o (List.replicate s.size 0)
    want := Function.update s.want o fun i =>
      match s.items.find? (·.id = i) with
      | none => []
      | some mip => List.replicate mip.size 0 }

/-- A module writes the byte `k` of its item in an object. -/
def State.write (s : State) (o : ℕ) (mip : Item) (k : ℕ) (b : UInt8) : Option State :=
  if 0 ≤ mip.offset ∧ mip.offset.toNat + k < (s.data o).length then
    some { s with
      data := Function.update s.data o ((s.data o).set (mip.offset.toNat + k) b)
      want := Function.update s.want o
        (Function.update (s.want o) mip.id ((s.want o mip.id).set k b)) }
  else none

/-- A header without items and a program without objects. -/
def start : State where
  size := 0
  items := []
  objs := []
  data := fun _ => []
  started := false
  fault := false
  want := fun _ _ => []
  skipped := false

/-- The state after a function, or the fault if it leaves a block. -/
def State.or (s : State) (o : Option State) : State :=
  o.getD { s with fault := true }

/-- A step. The address of a new item or object is not in use, and a module writes to the items that
are there, in objects that are there. -/
def step (s : State) (a : Action) : Option State :=
  if s.fault then none
  else
    match a with
    | .create id size junk =>
      if id ∈ s.items.map (·.id) then none else some (s.or (s.createItem id size junk))
    | .destroy id junk => some (s.or (s.destroyItem id junk))
    | .alloc o => if o ∈ s.objs then none else some (s.alloc o)
    | .free o => some { s with objs := s.objs.filter (· ≠ o) }
    | .write o id k b =>
      match s.items.find? (·.id = id) with
      | none => none
      | some mip =>
        if o ∈ s.objs ∧ k < mip.size then some (s.or (s.write o mip k b)) else none

/-! ### Passes -/

/-- The loop goes from where it is to the end of the list. -/
theorem visits_append (objs last : List ℕ) (n : ℕ) (h : last.length < n) :
    visits objs n true last = (last, false) := by
  induction last generalizing n with
  | nil =>
    cases n with
    | zero => omega
    | succ n => rfl
  | cons o last ih =>
    cases n with
    | zero => omega
    | succ n =>
      rw [List.length_cons] at h
      rw [visits, iter]
      dsimp only
      rw [ih n (by omega)]

/-- A pass comes to all the objects if the flag is clear, and to none if it is set. -/
theorem visits_eq (objs : List ℕ) (started : Bool) :
    visits objs (objs.length + 1) started [] =
      if started then ([], false) else (objs, objs.isEmpty) := by
  cases started with
  | true => rfl
  | false =>
    cases objs with
    | nil => rfl
    | cons o objs =>
      rw [visits, iter]
      dsimp only
      rw [if_neg Bool.false_ne_true]
      dsimp only
      rw [visits_append _ _ _ (by simp)]
      rfl

/-- The loop changes the block of every object it comes to, and no other. -/
theorem forVisited_spec {body : ℕ → Bytes → Option Bytes} {f : ℕ → Bytes} {visited : List ℕ}
    {data : ℕ → Bytes} (hnd : visited.Nodup) (hbody : ∀ o ∈ visited, body o (data o) = some (f o)) :
    forVisited body visited data = some fun o => if o ∈ visited then f o else data o := by
  induction visited generalizing data with
  | nil => simp [forVisited]
  | cons v visited ih =>
    obtain ⟨hv, hnd⟩ := List.nodup_cons.mp hnd
    have hrest : ∀ o ∈ visited, body o (Function.update data v (f v) o) = some (f o) := by
      rintro o ho
      have hne : o ≠ v := fun heq => hv (heq ▸ ho)
      rw [Function.update_of_ne hne]
      exact hbody o (List.mem_cons_of_mem v ho)
    have hih := ih hnd hrest
    rw [forVisited] at hih ⊢
    rw [List.foldlM_cons, hbody v List.mem_cons_self]
    refine hih.trans (congrArg some (funext fun o => ?_))
    by_cases ho : o = v
    · subst ho
      simp [hv]
    · simp [ho]

/-- Is the iterator at its beginning, or has it nothing to come to? -/
def Ready (s : State) : Prop :=
  s.objs = [] ∨ s.started = false

instance (s : State) : Decidable (Ready s) :=
  inferInstanceAs (Decidable (s.objs = [] ∨ s.started = false))

variable {s s' : State}

/-- A pass with the iterator at its beginning changes the block of every object. -/
theorem Ready.pass {body : ℕ → Bytes → Option Bytes} {f : ℕ → Bytes} (h : Ready s)
    (hnd : s.objs.Nodup) (hbody : ∀ o ∈ s.objs, body o (s.data o) = some (f o)) :
    ∃ started, (s.objs = [] ∨ started = false) ∧ s.pass body = some { s with
      data := fun o => if o ∈ s.objs then f o else s.data o, started := started } := by
  rw [State.pass, visits_eq]
  rcases h with hobjs | hstarted
  · refine ⟨!s.started, .inl hobjs, ?_⟩
    cases hst : s.started <;> simp [hobjs, forVisited]
  · rw [hstarted, if_neg Bool.false_ne_true, forVisited_spec hnd hbody]
    refine ⟨s.objs.isEmpty, ?_, by simp⟩
    cases s.objs <;> simp

end Mdext

end Ithildin
