import Ithildin.Send.Flags

/-!
# Members of message flags, over every run of calls

* `Tracked`: the array of flags, and the roster that it should hold;
* `Kept`: a call goes well, the lists hold the roster behind it, and a flag is found by its name;
* `Settled`: the array does not move with a member in it, and no destroyed slot is looked at;
* `kept_along_iff`: just then all calls of a run are kept.

The first link of a list has the address of its head, and that is in the array: when `realloc` moves
the array, the link still has the old one. A destroyed slot has no name to compare with.
-/

namespace Ithildin

namespace FlagNet

variable {net : FlagNet} {roster : Roster} {c i : ℕ}

/-! ### Creating a flag -/

theorem freeSlot_le : net.freeSlot ≤ net.slots.length := List.findIdx_le_length

/-- The array may grow in its place, or if nobody is in a flag. -/
def MayGrow (net : FlagNet) (roster : Roster) (base : ℕ) : Prop :=
  base = net.base ∨ ∀ i < net.slots.length, roster i = []

/-- What the new slot at the end of a larger array holds. -/
theorem getElem?_setSlot_grow {base : ℕ} {f g : SendFlag}
    (h : ((net.grow base).setSlot net.slots.length f).slots[i]? = some g) :
    net.slots[i]? = some g ∨ i = net.slots.length ∧ g = f := by
  have h' : ((net.slots ++ [unusedSlot]).set net.slots.length f)[i]? = some g := h
  rw [List.set_append_right _ _ le_rfl, Nat.sub_self, List.set_cons_zero,
    List.getElem?_append] at h'
  split at h'
  · exact .inl h'
  · rename_i hi
    obtain ⟨hlt, heq⟩ := List.getElem?_eq_some_iff.mp h'
    rw [List.length_singleton] at hlt
    obtain rfl : i = net.slots.length := by omega
    exact .inr ⟨rfl, by simpa using heq.symm⟩

theorem length_setSlot_grow {base : ℕ} {f : SendFlag} :
    ((net.grow base).setSlot net.slots.length f).slots.length = net.slots.length + 1 := by
  simp [setSlot, grow]

/-- What a head of the larger array points at. -/
theorem get_setSlot_grow (base : ℕ) (f : SendFlag) (hi : i ≠ net.slots.length) :
    ((net.grow base).setSlot net.slots.length f).lists.get (.head (base, i)) =
      net.lists.get (.head (net.base, i)) := by
  have hne : Place.head (base, i) ≠ Place.head (ι := ℕ) (base, net.slots.length) := by
    simpa using hi
  refine (Backlist.get_put_of_ne (L := (net.grow base).lists) hne).trans ?_
  show (if base = base then net.lists.first (net.base, i) else net.lists.first (base, i)) =
    net.lists.first (net.base, i)
  rw [if_pos rfl]

theorem Sound.setSlot_grow {base : ℕ} {f : SendFlag} (h : net.Sound roster)
    (hgrow : net.MayGrow roster base) (hf : f.Numbered net.slots.length) :
    ((net.grow base).setSlot net.slots.length f).Sound
      (Function.update roster net.slots.length []) where
  safe := h.safe
  below := h.below
  slots i g hg := by
    rcases getElem?_setSlot_grow hg with hg | ⟨rfl, rfl⟩
    · exact h.slots i g hg
    · exact hf
  reads i hi := by
    rw [length_setSlot_grow] at hi
    by_cases hlast : i = net.slots.length
    · subst hlast
      rw [Function.update_self]
      exact ⟨⟨[], Backlist.get_put_self (L := (net.grow base).lists)
        (p := .head (base, net.slots.length)) (o := none), rfl⟩, List.nodup_nil, by simp⟩
    · rw [Function.update_of_ne hlast]
      obtain ⟨⟨links, hholds, hmap⟩, hrest⟩ := h.reads i (by omega)
      refine ⟨⟨links, ?_, hmap⟩, hrest⟩
      have hget := get_setSlot_grow base f hlast
      rcases hgrow with rfl | hempty
      · exact hholds.congr hget fun _ _ => ⟨rfl, rfl⟩
      · -- nobody is in the flag, and its head is empty at the new address
        obtain rfl : links = [] := by simpa [hempty i (by omega)] using hmap
        exact hget.trans hholds

/-- A member's link has the address of the head that it had before the array moved. -/
theorem not_reads_of_moved {base : ℕ} {f : SendFlag} (h : net.Sound roster)
    (hbase : base ≠ net.base) (hi : i < net.slots.length) (hmember : roster i ≠ []) :
    ¬ ((net.grow base).setSlot net.slots.length f).Reads
      (Function.update roster net.slots.length []) := by
  intro hreads
  have hlast : i ≠ net.slots.length := by omega
  obtain ⟨⟨links, hholds, hmap⟩, -⟩ := h.reads i hi
  obtain ⟨⟨links', hholds', hmap'⟩, -⟩ := hreads i (by rw [length_setSlot_grow]; omega)
  rw [Function.update_of_ne hlast] at hmap'
  cases links with
  | nil => exact hmember (by simpa using hmap.symm)
  | cons x links =>
    cases links' with
    | nil => exact hmember (by simpa using hmap'.symm)
    | cons y links' =>
      have hx : net.lists.get (.head (net.base, i)) = some x := hholds.1
      have hy : ((net.grow base).setSlot net.slots.length f).lists.get (.head (base, i)) = some y :=
        hholds'.1
      rw [get_setSlot_grow _ _ hlast, hx] at hy
      obtain rfl := Option.some.inj hy
      have hold : net.lists.prev x = .head (net.base, i) := hholds.2.1
      have hnew : net.lists.prev x = .head (base, i) := hholds'.2.1
      rw [hold] at hnew
      exact hbase (by simpa using hnew.symm)

/-! ### Finding a flag -/

/-- The loop comes to an end just if a flag with the name comes before every slot without one. -/
theorem isSome_findFrom_iff {name : Bytes} {k : ℕ} {l : List SendFlag} :
    (findFrom name k l).isSome ↔ ∀ (i : ℕ) (f : SendFlag), l[i]? = some f → f.name = none →
      ∃ j < i, ∃ g s, l[j]? = some g ∧ g.name = some s ∧ sameCase s name = true := by
  induction l generalizing k with
  | nil => simp [findFrom]
  | cons g l ih =>
    rw [findFrom]
    cases hg : g.name with
    | none =>
      refine iff_of_false (by simp) fun h => ?_
      obtain ⟨j, hj, -⟩ := h 0 g rfl hg
      omega
    | some s =>
      rw [Option.bind_some]
      by_cases hs : sameCase s name = true
      · rw [if_pos hs]
        refine iff_of_true rfl fun i f hf hnone => ?_
        cases i with
        | zero =>
          obtain rfl : g = f := by simpa using hf
          simp [hg] at hnone
        | succ i => exact ⟨0, by omega, g, s, rfl, hg, hs⟩
      · rw [if_neg hs, ih]
        constructor
        · intro h i f hf hnone
          cases i with
          | zero =>
            obtain rfl : g = f := by simpa using hf
            simp [hg] at hnone
          | succ i =>
            obtain ⟨j, hj, hrest⟩ := h i f (by simpa using hf) hnone
            exact ⟨j + 1, by omega, by simpa using hrest⟩
        · intro h i f hf hnone
          obtain ⟨j, hj, g', s', hg', hs', hsame⟩ := h (i + 1) f (by simpa using hf) hnone
          cases j with
          | zero =>
            obtain rfl : g = g' := by simpa using hg'
            obtain rfl := Option.some.inj (hg.symm.trans hs')
            exact absurd hsame hs
          | succ j => exact ⟨j, by omega, g', s', by simpa using hg', hs', hsame⟩

/-- What the loop comes to. -/
theorem findFrom_spec {name : Bytes} {k : ℕ} {l : List SendFlag} {r : ℤ}
    (h : findFrom name k l = some r) :
    (r = -1 ∧ ∀ f ∈ l, ∀ s, f.name = some s → sameCase s name = false) ∨
      ∃ (i : ℕ) (f : SendFlag) (s : Bytes), r = (k + i : ℕ) ∧ l[i]? = some f ∧ f.name = some s ∧
        sameCase s name = true := by
  induction l generalizing k with
  | nil =>
    obtain rfl : -1 = r := by simpa [findFrom] using h
    exact .inl ⟨rfl, by simp⟩
  | cons g l ih =>
    rw [findFrom] at h
    obtain ⟨s, hs, h⟩ := Option.bind_eq_some_iff.mp h
    split at h
    · rename_i hsame
      exact .inr ⟨0, g, s, by simpa using h.symm, rfl, hs, hsame⟩
    · rename_i hdiff
      rcases ih h with ⟨hr, hall⟩ | ⟨i, f, t, hr, hf, ht, hsame⟩
      · refine .inl ⟨hr, fun f hf t ht => ?_⟩
        rcases List.mem_cons.mp hf with rfl | hf
        · obtain rfl := Option.some.inj (hs.symm.trans ht)
          simpa using hdiff
        · exact hall f hf t ht
      · exact .inr ⟨i + 1, f, t, by rw [hr]; congr 1; omega, by simpa using hf, ht, hsame⟩

/-- A flag that is there has the name, or none has and it is `-1`. -/
def Found (net : FlagNet) (name : Bytes) (r : ℤ) : Prop :=
  (r = -1 ∧ ∀ f ∈ net.slots, f.num ≠ -1 → ∀ s, f.name = some s → sameCase s name = false) ∨
    ∃ (i : ℕ) (f : SendFlag) (s : Bytes), r = i ∧ net.slots[i]? = some f ∧ f.num ≠ -1 ∧
      f.name = some s ∧ sameCase s name = true

/-- Before every destroyed slot there is a flag with the name. -/
def Shielded (net : FlagNet) (name : Bytes) : Prop :=
  ∀ (i : ℕ) (f : SendFlag), net.slots[i]? = some f → f.num = -1 →
    ∃ j < i, ∃ g s, net.slots[j]? = some g ∧ g.name = some s ∧ sameCase s name = true

theorem SendFlag.Numbered.num_eq_iff {f : SendFlag} (h : f.Numbered i) :
    f.num = -1 ↔ f.name = none := by
  rcases h with ⟨hnum, hname⟩ | ⟨hnum, s, hname⟩
  · simp [hnum, hname]
  · have hne : f.num ≠ -1 := by omega
    simp [hne, hname]

theorem Sound.isSome_findSendFlag_iff (h : net.Sound roster) {name : Bytes} :
    (net.findSendFlag name).isSome ↔ net.Shielded name := by
  rw [findSendFlag, isSome_findFrom_iff]
  refine forall_congr' fun i => forall_congr' fun f => forall_congr' fun hf => ?_
  rw [SendFlag.Numbered.num_eq_iff (h.slots i f hf)]

theorem Sound.found (h : net.Sound roster) {name : Bytes} {r : ℤ}
    (hr : net.findSendFlag name = some r) : net.Found name r := by
  rcases findFrom_spec hr with ⟨rfl, hall⟩ | ⟨i, f, s, rfl, hf, hs, hsame⟩
  · exact .inl ⟨rfl, fun f hf _ => hall f hf⟩
  · refine .inr ⟨i, f, s, by simp, hf, fun hnum => ?_, hs, hsame⟩
    rw [SendFlag.Numbered.num_eq_iff (h.slots i f hf), hs] at hnum
    cases hnum

/-! ### Clients -/

/-- A client that comes, or has other privileges. -/
theorem Sound.setClient {r : FlagClient} (h : net.Sound roster)
    (hmine : ∀ r₀, net.client c = some r₀ → r.mine = r₀.mine) :
    (net.setClient c (some r)).Sound roster where
  safe := h.safe
  below := h.below
  slots := h.slots
  reads i hi := by
    obtain ⟨hlists, hnodup, hclient⟩ := h.reads i hi
    refine ⟨hlists, hnodup, fun d hd => ?_⟩
    obtain ⟨r₀, hr₀, hmine₀⟩ := hclient d hd
    by_cases hdc : d = c
    · subst hdc
      exact ⟨r, Function.update_self .., (hmine r₀ hr₀).trans hmine₀⟩
    · exact ⟨r₀, (Function.update_of_ne hdc ..).trans hr₀, hmine₀⟩

theorem Sound.leaveFlags (h : net.Sound roster) {n : ℕ} (hn : n ≤ net.slots.length) :
    ∃ net', FlagNet.leaveFlags c n net = some net' ∧ SameArray net net' ∧
      net'.Sound fun i => if i < n then (roster i).erase c else roster i := by
  induction n with
  | zero => exact ⟨net, rfl, .refl net, by simpa using h⟩
  | succ n ih =>
    obtain ⟨net₁, hleave, hsame, hsound⟩ := ih (by omega)
    obtain ⟨net₂, hremove, hsame', hsound'⟩ :=
      hsound.removeFromSendFlag (c := c)
        (show n < net₁.slots.length by rw [hsame.slots]; omega) true
    refine ⟨net₂, ?_, hsame.trans hsame', ?_⟩
    · rw [FlagNet.leaveFlags, hleave, Option.bind_some, hremove]
    · convert hsound' using 1
      funext i
      rw [if_pos (show net₁.releases n true = true from rfl)]
      by_cases hi : i = n
      · subst hi
        simp
      · rw [Function.update_of_ne hi]
        have hlt : i < n + 1 ↔ i < n := by omega
        simp only [hlt]

theorem Sound.destroyClient (h : net.Sound roster) (hthere : (net.client c).isSome) :
    ∃ net', net.destroyClient c = some net' ∧ net'.Sound fun i => (roster i).erase c := by
  obtain ⟨r, hr⟩ := Option.isSome_iff_exists.mp hthere
  -- behind the loop, the client is in no flag of the array
  have hloop : ∃ net₁, (if r.mine then FlagNet.leaveFlags c net.slots.length net else some net) =
      some net₁ ∧ SameArray net net₁ ∧
        net₁.Sound fun i => if i < net.slots.length then (roster i).erase c else roster i := by
    cases hmine : r.mine with
    | true => exact h.leaveFlags le_rfl
    | false =>
      refine ⟨net, rfl, .refl net, ⟨h.safe, fun i hi => ?_, h.below, h.slots⟩⟩
      have hnot : c ∉ roster i := by
        intro hmem
        obtain ⟨r', hr', hmine'⟩ := (h.reads i hi).2.2 c hmem
        obtain rfl := Option.some.inj (hr.symm.trans hr')
        rw [hmine] at hmine'
        cases hmine'
      rw [if_pos hi, List.erase_of_not_mem hnot]
      exact h.reads i hi
  obtain ⟨net₁, hnet₁, hsame, hsound⟩ := hloop
  rw [FlagNet.destroyClient, hr, Option.bind_some, hnet₁]
  refine ⟨_, rfl, ⟨hsound.safe, fun i hi => ?_, hsound.below, hsound.slots⟩⟩
  have hi' : i < net.slots.length := by
    rw [← hsame.slots]
    exact hi
  have hreads := hsound.reads i hi
  rw [if_pos hi'] at hreads
  obtain ⟨hlists, hnodup, hclient⟩ := hreads
  refine ⟨hlists, hnodup, fun d hd => ?_⟩
  obtain ⟨r', hr', hmine⟩ := hclient d hd
  have hdc : d ≠ c := by
    rintro rfl
    exact ((h.reads i hi').2.1.mem_erase_iff.mp hd).1 rfl
  exact ⟨r', (Function.update_of_ne hdc ..).trans hr', hmine⟩

end FlagNet

/-! ### Runs -/

/-- The flags, and who is in which of them. -/
structure Tracked where
  net : FlagNet
  roster : Roster

namespace Tracked

open FlagNet

variable {t t' : Tracked} {a : Action}

/-- One call. -/
def step (t : Tracked) (a : Action) : Option Tracked :=
  if t.net.Called a then
    some ⟨(t.net.exec a).getD { t.net with fault := true }, t.net.rosterAfter t.roster a⟩
  else none

/-- There is no flag yet, and no client. -/
def initial : Tracked where
  net := ⟨0, [], ⟨fun _ => none, fun _ => none, fun _ => .head (0, 0)⟩, fun _ => none, 0,
    fun _ => none, false⟩
  roster := fun _ => []

/-- What `find_send_flag` returns is right. -/
def Answered (net : FlagNet) : Action → Prop
  | .find name => ∃ r, net.findSendFlag name = some r ∧ net.Found name r
  | _ => True

/-- The call goes well, and behind it the lists hold the roster. -/
def Kept (t : Tracked) (a : Action) : Prop :=
  ∀ t', t.step a = some t' → t'.net.fault = false ∧ t'.net.Reads t'.roster ∧ Answered t.net a

/-- A flag that is created does not move the array with a member in it, and a flag is looked for
where the destroyed slots do not come first. -/
def Settled (t : Tracked) : Action → Prop
  | .create base name _ _ => name = [] ∨ t.net.freeSlot < t.net.slots.length ∨
      t.net.MayGrow t.roster base
  | .find name => t.net.Shielded name
  | _ => True

theorem step_of_called (h : t.net.Called a) (hstep : t.step a = some t') :
    t' = ⟨(t.net.exec a).getD { t.net with fault := true }, t.net.rosterAfter t.roster a⟩ := by
  rw [step, if_pos h] at hstep
  exact (Option.some.inj hstep).symm

theorem called_of_step (hstep : t.step a = some t') : t.net.Called a := by
  by_contra h
  rw [step, if_neg h] at hstep
  cases hstep

/-- A call that goes well. -/
theorem exec_of_settled (h : t.net.Sound t.roster) (hcall : t.net.Called a) (ha : t.Settled a) :
    ∃ net', t.net.exec a = some net' ∧ net'.Sound (t.net.rosterAfter t.roster a) := by
  cases a with
  | connect c r =>
    have hc : t.net.client c = none := hcall
    exact ⟨_, rfl, h.setClient fun r₀ hr₀ => by rw [hc] at hr₀; cases hr₀⟩
  | change c oper bpriv =>
    obtain ⟨r, hr⟩ := Option.isSome_iff_exists.mp hcall
    rw [exec, hr]
    refine ⟨_, rfl, h.setClient fun r₀ hr₀ => ?_⟩
    obtain rfl := Option.some.inj (hr.symm.trans hr₀)
    rfl
  | destroyClient c => exact h.destroyClient hcall
  | create base name flags priv =>
    rw [exec, createSendFlag, rosterAfter]
    by_cases hname : name = []
    · rw [if_pos hname, if_pos hname]
      exact ⟨t.net, rfl, h⟩
    · rw [if_neg hname, if_neg hname]
      refine ⟨_, rfl, ?_⟩
      have hnum : SendFlag.Numbered ⟨some name, t.net.freeSlot, priv, flags⟩ t.net.freeSlot :=
        .inr ⟨rfl, name, rfl⟩
      dsimp only
      rw [makeRoom]
      by_cases hfull : t.net.freeSlot = t.net.slots.length
      · rw [if_pos hfull]
        rw [hfull] at hnum ⊢
        refine h.setSlot_grow ?_ hnum
        rcases ha with hnil | hlt | hgrow
        · exact absurd hnil hname
        · omega
        · exact hgrow
      · rw [if_neg hfull]
        exact h.setSlot hnum
  | destroy flg => exact h.destroySendFlag hcall
  | find name =>
    obtain ⟨r, hr⟩ := Option.isSome_iff_exists.mp (h.isSome_findSendFlag_iff.mpr ha)
    rw [exec, hr]
    exact ⟨t.net, rfl, h⟩
  | add flg c force =>
    obtain ⟨net', err, hadd, hsound⟩ := h.addToSendFlag hcall.1 hcall.2 force
    rw [exec, hadd]
    exact ⟨net', rfl, hsound⟩
  | remove flg c force =>
    obtain ⟨net', hremove, -, hsound⟩ := h.removeFromSendFlag (c := c) hcall.1 force
    exact ⟨net', hremove, hsound⟩

theorem sound_step (h : t.net.Sound t.roster) (ha : t.Settled a) (hstep : t.step a = some t') :
    t'.net.Sound t'.roster := by
  have hcall := called_of_step hstep
  obtain ⟨net', hexec, hsound⟩ := exec_of_settled h hcall ha
  obtain rfl := step_of_called hcall hstep
  rw [hexec]
  exact hsound

theorem kept_of_settled (h : t.net.Sound t.roster) (ha : t.Settled a) : t.Kept a := by
  intro t' hstep
  have hsound := sound_step h ha hstep
  refine ⟨hsound.safe, hsound.reads, ?_⟩
  cases a with
  | find name =>
    obtain ⟨r, hr⟩ := Option.isSome_iff_exists.mp (h.isSome_findSendFlag_iff.mpr ha)
    exact ⟨r, hr, h.found hr⟩
  | _ => trivial

theorem settled_of_kept (h : t.net.Sound t.roster) (ha : t.Kept a) : t.Settled a := by
  cases a with
  | find name =>
    obtain ⟨-, -, r, hr, -⟩ := ha _ (if_pos trivial)
    refine h.isSome_findSendFlag_iff.mp ?_
    rw [hr]
    rfl
  | create base name flags priv =>
    by_contra hnot
    have hname : name ≠ [] := fun hnil => hnot (.inl hnil)
    have hfull : t.net.freeSlot = t.net.slots.length := by
      have hle : t.net.freeSlot ≤ t.net.slots.length := freeSlot_le
      have hge : ¬ t.net.freeSlot < t.net.slots.length := fun hlt => hnot (.inr (.inl hlt))
      omega
    have hmoved : ¬ t.net.MayGrow t.roster base := fun hgrow => hnot (.inr (.inr hgrow))
    rw [MayGrow, not_or] at hmoved
    obtain ⟨hbase, hmember⟩ := hmoved
    simp only [not_forall] at hmember
    obtain ⟨i, hi, hmember⟩ := hmember
    obtain ⟨-, hreads, -⟩ := ha _ (if_pos trivial)
    -- the array has moved, and this flag has a member
    refine not_reads_of_moved h hbase hi hmember
      (f := ⟨some name, t.net.slots.length, priv, flags⟩) ?_
    simpa only [exec, createSendFlag, rosterAfter, makeRoom, if_neg hname, if_pos hfull,
      Option.getD_some, hfull, if_true] using hreads
  | _ => trivial

theorem sound_initial : initial.net.Sound initial.roster where
  safe := rfl
  reads i hi := absurd hi (Nat.not_lt_zero i)
  below x hx := by cases hx
  slots i f hf := by cases hf

theorem along_kept_iff (h : t.net.Sound t.roster) (calls : List Action) :
    Run.Along step Kept t calls ↔ Run.Along step Settled t calls :=
  (Run.along_iff (I := fun t => t.net.Sound t.roster) (fun _ _ _ => sound_step)
    (fun _ _ h => ⟨kept_of_settled h, settled_of_kept h⟩) h).symm

/-- Message flags, their members and their names: over every run of calls, all of them are kept just
if the array never moves with a member in it and no destroyed slot is looked at. -/
theorem kept_along_iff (calls : List Action) :
    Run.Along step Kept initial calls ↔ Run.Along step Settled initial calls :=
  along_kept_iff sound_initial calls

/-- The operators' flag has a member when a module brings a flag of its own, and `realloc` moves the
array. -/
def movedCalls : List Action :=
  [.create 1000 (bytes "OPERATORS") 5 (-1), .connect 0 ⟨true, true, fun _ => true⟩, .add 0 0 true,
    .create 2000 (bytes "CHATOPS") 1 (-1)]

/-- A flag is looked for behind one whose module has gone. -/
def goneCalls : List Action :=
  [.create 1000 (bytes "CHATOPS") 1 (-1), .destroy 0, .find (bytes "OPERATORS")]

theorem kept_along_fails : ¬ ∀ calls, Run.Along step Kept initial calls := by
  intro h
  have hsettled := (along_kept_iff sound_initial movedCalls).mp (h movedCalls)
  rcases (((hsettled.2 _ rfl).2 _ rfl).2 _ rfl).1 with hname | hfree | hbase | hempty
  · exact absurd hname (by decide)
  · exact absurd hfree (by decide)
  · exact absurd hbase (by decide)
  · exact absurd (hempty 0 (by decide)) (by decide)

/-- The destroyed slot is looked at, too. -/
theorem not_kept_goneCalls : ¬ Run.Along step Kept initial goneCalls := by
  intro h
  have hsettled := (along_kept_iff sound_initial goneCalls).mp h
  obtain ⟨j, hj, -⟩ := ((hsettled.2 _ rfl).2 _ rfl).1 0 unusedSlot rfl rfl
  omega

end Tracked

end Ithildin
