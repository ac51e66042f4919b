import Ithildin.Services.Database

/-!
# Nicks that expire

The first nick that is due is destroyed, and the walk goes on with it in freed memory; if other
nicks are linked to it they are counted without end. Where no nick is due the walk writes every nick
once, parents first.

* `Exact`: what the walk is to do;
* `Doomed`: a walk that will not come to its end;
* `walkAt`, `writeOrder`: the walk after some nicks have been written, and the order of all of them;
* `exact_iff`: the walk is exact if and only if no nick is due.
-/

namespace Ithildin.NickStore

variable {s : NickStore} {e : Expiry} {w w' : Walk} {a b : ℕ} {np : NickRecord}

/-- The walk ends, what is gone is what was due or below something that was, and what is left has
been written once. -/
def Exact (e : Expiry) (s : NickStore) : Prop :=
  ∃ n w, Walk.run e n (Walk.start s) = some w ∧ w.pos = .done ∧
    (∀ a, s.nick a ≠ none →
      (w.store.nick a = none ↔ ∃ b np, Below s a b ∧ s.nick b = some np ∧ due e np = true)) ∧
    (∀ a, a ∈ w.store.nicks ↔ w.store.nick a ≠ none) ∧
    ∀ a, w.written.count a = if a ∈ w.store.nicks then 1 else 0

/-! ### A nick is due -/

theorem regnickDestroy_gone {s' : NickStore} {n : ℕ} (h : s.regnickDestroy n a = some s') :
    s'.nick a = none := by
  cases n with
  | zero => cases h
  | succ n =>
    rw [regnickDestroy] at h
    obtain ⟨np, -, h⟩ := Option.bind_eq_some_iff.mp h
    obtain ⟨s₁, -, h⟩ := Option.bind_eq_some_iff.mp h
    obtain ⟨s₂, -, h⟩ := Option.bind_eq_some_iff.mp h
    split at h
    · obtain rfl := Option.some.inj h
      rw [dropNick]
      exact Function.update_self ..
    · cases h

/-- Writing a nick does not make another due, or keep it from being so. -/
theorem due_or_synced :
    due e { np with intflags := np.intflags ||| NICK_IFL_SYNCED } = due e np := by
  have hheld :
      (np.intflags ||| NICK_IFL_SYNCED) &&& NICK_IFL_HELD = np.intflags &&& NICK_IFL_HELD := by
    have hzero : NICK_IFL_SYNCED &&& NICK_IFL_HELD = 0 := by decide
    rw [BitVec.and_or_distrib_right, hzero]
    exact BitVec.or_zero
  rw [due, due, hheld]

theorem write_due (h : w.write a = some w')
    (hb : ∃ np, w.store.nick b = some np ∧ due e np = true) :
    w'.store.nicks = w.store.nicks ∧ ∃ np, w'.store.nick b = some np ∧ due e np = true := by
  rw [Walk.write] at h
  obtain ⟨np, hnp, h⟩ := Option.bind_eq_some_iff.mp h
  split at h
  · obtain rfl := Option.some.inj h
    exact ⟨rfl, hb⟩
  · obtain ⟨text, -, h⟩ := Option.bind_eq_some_iff.mp h
    obtain rfl := Option.some.inj h
    obtain ⟨npb, hnpb, hdue⟩ := hb
    refine ⟨rfl, ?_⟩
    dsimp only [modifyNick]
    by_cases hba : b = a
    · rw [hba, Function.update_self, ← hba, hnpb, Option.map_some]
      exact ⟨_, rfl, due_or_synced.trans hdue⟩
    · rw [Function.update_of_ne hba]
      exact ⟨npb, hnpb, hdue⟩

/-- The walk is on its way to a nick that is due, or in the loop that counts what is linked to one,
or at one that has been destroyed. -/
inductive Doomed (e : Expiry) (w : Walk) : Prop
  | ahead (l₁ : List ℕ) (a : ℕ) (l₂ : List ℕ) (b : ℕ) (hpos : w.pos = .visit a)
      (hnicks : w.store.nicks = l₁ ++ a :: l₂) (hnodup : w.store.nicks.Nodup) (hb : b ∈ a :: l₂)
      (hdue : ∃ np, w.store.nick b = some np ∧ due e np = true)
  | counted (a : ℕ) (hpos : w.pos = .count a)
  | freed (a : ℕ) (hpos : w.pos = .visit a) (hgone : w.store.nick a = none)

theorem listNext_eq {l₁ l₂ : List ℕ} (hnicks : s.nicks = l₁ ++ a :: l₂) (hnodup : s.nicks.Nodup) :
    s.listNext a = l₂.head? := by
  have hnot : ∀ x ∈ l₁, (x != a) = true := by
    intro x hx
    rw [bne_iff_ne]
    rintro rfl
    rw [hnicks] at hnodup
    exact List.disjoint_of_nodup_append hnodup hx List.mem_cons_self
  rw [listNext, hnicks, List.dropWhile_append_of_pos hnot, List.dropWhile_cons_of_neg (by simp),
    List.tail_cons]

theorem Doomed.step (h : Doomed e w) (hw : w.step e = some w') : Doomed e w' := by
  cases h with
  | ahead l₁ a l₂ b hpos hnicks hnodup hb hdue =>
    rw [Walk.step, hpos] at hw
    obtain ⟨np, hnp, hw⟩ := Option.bind_eq_some_iff.mp hw
    split at hw
    · obtain rfl := Option.some.inj hw
      exact .counted a rfl
    · rename_i hnot
      obtain ⟨w₁, hw₁, hw⟩ := Option.bind_eq_some_iff.mp hw
      obtain ⟨w₂, hw₂, hw⟩ := Option.bind_eq_some_iff.mp hw
      obtain rfl := Option.some.inj hw
      -- the nick that is due is further on
      have hb₂ : b ∈ l₂ := by
        rcases List.mem_cons.mp hb with rfl | hb
        · obtain ⟨npb, hnpb, hdue⟩ := hdue
          obtain rfl := Option.some.inj (hnp.symm.trans hnpb)
          exact absurd hdue hnot
        · exact hb
      have hkept₁ : w₁.store.nicks = w.store.nicks ∧
          ∃ np, w₁.store.nick b = some np ∧ due e np = true := by
        cases hp : np.parent with
        | none =>
          rw [hp] at hw₁
          obtain rfl := Option.some.inj hw₁
          exact ⟨rfl, hdue⟩
        | some p =>
          rw [hp] at hw₁
          exact write_due hw₁ hdue
      obtain ⟨hnicks₂, hdue₂⟩ := write_due hw₂ hkept₁.2
      have hnicks₂ := hnicks₂.trans hkept₁.1
      obtain ⟨c, l₃, rfl⟩ := List.exists_cons_of_ne_nil (List.ne_nil_of_mem hb₂)
      refine .ahead (l₁ ++ [a]) c l₃ b ?_ ?_ ?_ hb₂ hdue₂
      · dsimp only
        rw [listNext_eq hnicks hnodup]
        rfl
      · dsimp only
        rw [hnicks₂, hnicks, List.append_assoc]
        rfl
      · dsimp only
        rw [hnicks₂]
        exact hnodup
  | counted a hpos =>
    rw [Walk.step, hpos] at hw
    obtain ⟨np, -, hw⟩ := Option.bind_eq_some_iff.mp hw
    split at hw
    · obtain rfl := Option.some.inj hw
      exact .counted a rfl
    · obtain ⟨s', hs', hw⟩ := Option.bind_eq_some_iff.mp hw
      obtain rfl := Option.some.inj hw
      exact .freed a rfl (regnickDestroy_gone hs')
  | freed a hpos hgone =>
    rw [Walk.step, hpos] at hw
    obtain ⟨np, hnp, -⟩ := Option.bind_eq_some_iff.mp hw
    rw [hgone] at hnp
    cases hnp

theorem Doomed.not_done (h : Doomed e w) {n : ℕ} (hw : Walk.run e n w = some w') :
    w'.pos ≠ .done := by
  induction n generalizing w with
  | zero =>
    obtain rfl := Option.some.inj hw
    cases h with
    | ahead l₁ a l₂ b hpos => simp [hpos]
    | counted a hpos => simp [hpos]
    | freed a hpos => simp [hpos]
  | succ n ih =>
    rw [Walk.run] at hw
    obtain ⟨w₁, hw₁, hw⟩ := Option.bind_eq_some_iff.mp hw
    exact ih (h.step hw₁) hw

/-! ### No nick is due -/

/-- A nick is written if it has not been. -/
def push (l : List ℕ) (a : ℕ) : List ℕ := if a ∈ l then l else l ++ [a]

/-- A nick is come to in the walk. -/
def visit (s : NickStore) (l : List ℕ) (a : ℕ) : List ℕ :=
  push (((s.nick a).bind fun np => np.parent).elim l (push l)) a

/-- The nicks in the order in which they are written. -/
def writeOrder (s : NickStore) : List ℕ := s.nicks.foldl s.visit []

/-- Some nicks are marked as written. -/
def mark (s : NickStore) (l : List ℕ) : NickStore :=
  { s with nick := fun a => (s.nick a).map fun np =>
      if a ∈ l then { np with intflags := np.intflags ||| NICK_IFL_SYNCED } else np }

/-- The file, with the mail contacts and some nicks. -/
def fileOf (s : NickStore) (l : List ℕ) : Bytes :=
  ((s.mails.filterMap s.contact).map mailLine).flatMap endLine ++
    l.flatMap fun a => ((s.nick a).bind s.nickText).getD []

/-- The walk when some nicks have been written. -/
def walkAt (s : NickStore) (l : List ℕ) (pos : WalkPos) : Walk := ⟨s.mark l, pos, s.fileOf l, l, 0⟩

/-- No nick is marked as written. -/
def Unmarked (s : NickStore) : Prop := ∀ a np, s.nick a = some np → synced np = false

theorem synced_or : synced { np with intflags := np.intflags ||| NICK_IFL_SYNCED } = true := by
  rw [synced, decide_eq_true_eq]
  intro hzero
  have hbit := congrArg (BitVec.getLsbD · 3) hzero
  simp [NICK_IFL_SYNCED] at hbit

theorem nickText_mark (l : List ℕ) : (s.mark l).nickText np = s.nickText np := by
  rw [nickText, nickText]
  refine congrArg _ (funext fun m => ?_)
  change (s.contact m).bind _ = (s.contact m).bind _
  refine congrArg _ (funext fun mcp => ?_)
  cases np.parent with
  | none => rfl
  | some p =>
    change ((s.nick p).map _).bind _ = (s.nick p).bind _
    cases s.nick p with
    | none => rfl
    | some pp =>
      rw [Option.map_some, Option.bind_some, Option.bind_some]
      split <;> rfl

/-- There is a text for every nick. -/
theorem exists_nickText (hs : Sound [] s) (ha : s.nick a = some np) :
    ∃ text, s.nickText np = some text := by
  obtain ⟨m, mcp, hm, hmcp⟩ := hs.email a np ha List.not_mem_nil
  rw [nickText, hm]
  change ∃ text, (s.contact m).bind _ = some text
  rw [hmcp, Option.bind_some]
  cases hp : np.parent with
  | none => exact ⟨_, rfl⟩
  | some p =>
    obtain ⟨pp, hpp, -⟩ := hs.parent a np p ha hp
    dsimp only
    rw [hpp]
    exact ⟨_, rfl⟩

theorem write_walkAt (hs : Sound [] s) (hsync : Unmarked s) (ha : s.nick a = some np) (l : List ℕ)
    (pos : WalkPos) : (walkAt s l pos).write a = some (walkAt s (push l a) pos) := by
  have hnick : (walkAt s l pos).store.nick a = some
      (if a ∈ l then { np with intflags := np.intflags ||| NICK_IFL_SYNCED } else np) := by
    change (s.nick a).map _ = _
    rw [ha, Option.map_some]
  rw [Walk.write, hnick]
  change (if _ then _ else _) = _
  by_cases hl : a ∈ l
  · rw [if_pos hl, if_pos synced_or, push, if_pos hl]
  · obtain ⟨text, htext⟩ := exists_nickText hs ha
    have hunmarked : ¬ synced np = true := by rw [hsync a np ha]; decide
    have htext' : (walkAt s l pos).store.nickText np = some text := (nickText_mark l).trans htext
    rw [if_neg hl, if_neg hunmarked, htext', push, if_neg hl]
    change some _ = some _
    rw [Option.some.injEq, walkAt, walkAt, Walk.mk.injEq]
    refine ⟨?_, rfl, ?_, rfl, rfl⟩
    · rw [modifyNick, mark, mark]
      dsimp only
      congr 1
      funext x
      by_cases hx : x = a
      · rw [hx, Function.update_self, ha, Option.map_some, Option.map_some, Option.map_some,
          if_neg hl, if_pos (by simp)]
      · rw [Function.update_of_ne hx]
        simp [hx]
    · rw [fileOf, fileOf, List.flatMap_append, List.append_assoc]
      simp [ha, htext]

theorem step_walkAt (hs : Sound [] s) (hsync : Unmarked s)
    (hdue : ∀ a np, s.nick a = some np → due e np = false) {l₁ l₂ : List ℕ}
    (hnicks : s.nicks = l₁ ++ a :: l₂) (l : List ℕ) :
    (walkAt s l (.visit a)).step e = some (walkAt s (s.visit l a) (Walk.position l₂.head?)) := by
  have hmem : a ∈ s.nicks := by simp [hnicks]
  obtain ⟨np, hnp⟩ := Option.ne_none_iff_exists'.mp ((hs.mem a).mp hmem)
  have hnick : (walkAt s l (.visit a)).store.nick a = some
      (if a ∈ l then { np with intflags := np.intflags ||| NICK_IFL_SYNCED } else np) := by
    change (s.nick a).map _ = _
    rw [hnp, Option.map_some]
  have hnot : ¬ due e (if a ∈ l then { np with intflags := np.intflags ||| NICK_IFL_SYNCED }
      else np) = true := by
    split
    · rw [due_or_synced, hdue a np hnp]
      decide
    · rw [hdue a np hnp]
      decide
  have hparent : (if a ∈ l then { np with intflags := np.intflags ||| NICK_IFL_SYNCED }
      else np).parent = np.parent := by
    split <;> rfl
  have hnext : (walkAt s l (.visit a)).store.listNext a = l₂.head? := listNext_eq hnicks hs.nodup
  change Option.bind ((walkAt s l (.visit a)).store.nick a) _ = _
  rw [hnick, Option.bind_some, if_neg hnot, hparent, hnext, visit, hnp, Option.bind_some]
  cases hp : np.parent with
  | none =>
    rw [Option.elim_none, Option.elim_none]
    change Option.bind ((walkAt s l (.visit a)).write a) _ = _
    rw [write_walkAt hs hsync hnp]
    rfl
  | some p =>
    obtain ⟨pp, hpp, -⟩ := hs.parent a np p hnp hp
    rw [Option.elim_some, Option.elim_some, write_walkAt hs hsync hpp]
    change Option.bind ((walkAt s (push l p) (.visit a)).write a) _ = _
    rw [write_walkAt hs hsync hnp]
    rfl

/-- The walk visits the nicks one by one. -/
theorem run_walkAt (hs : Sound [] s) (hsync : Unmarked s)
    (hdue : ∀ a np, s.nick a = some np → due e np = false) {l₁ l₂ : List ℕ}
    (hnicks : s.nicks = l₁ ++ l₂) (l : List ℕ) :
    Walk.run e l₂.length (walkAt s l (Walk.position l₂.head?)) =
      some (walkAt s (l₂.foldl s.visit l) .done) := by
  induction l₂ generalizing l₁ l with
  | nil => rfl
  | cons a l₂ ih =>
    change ((walkAt s l (.visit a)).step e).bind _ = _
    rw [step_walkAt hs hsync hdue hnicks l, Option.bind_some]
    have hnicks' : s.nicks = (l₁ ++ [a]) ++ l₂ := by
      rw [hnicks, List.append_assoc]
      rfl
    exact ih hnicks' (s.visit l a)

/-- If no nick is due the walk writes them in their order. -/
theorem run_start (hs : Sound [] s) (hsync : Unmarked s)
    (hdue : ∀ a np, s.nick a = some np → due e np = false) :
    Walk.run e s.nicks.length (Walk.start s) = some (walkAt s s.writeOrder .done) := by
  have hstart : Walk.start s = walkAt s [] (Walk.position s.nicks.head?) := by
    rw [Walk.start, walkAt, fileOf, List.flatMap_nil, List.append_nil, mark]
    simp
  rw [hstart]
  have hnicks : s.nicks = [] ++ s.nicks := rfl
  exact run_walkAt hs hsync hdue hnicks []

theorem dbWriteFile_eq (hs : Sound [] s) (hsync : Unmarked s)
    (hdue : ∀ a np, s.nick a = some np → due e np = false) :
    dbWriteFile e s = some ((walkAt s s.writeOrder .done).finish, s.fileOf s.writeOrder) := by
  rw [dbWriteFile, run_start hs hsync hdue, Option.filter_some_pos (by exact decide_eq_true rfl)]
  rfl

theorem mem_push {l : List ℕ} {x : ℕ} : x ∈ push l a ↔ x ∈ l ∨ x = a := by
  rw [push]
  split
  · rename_i ha
    constructor
    · exact .inl
    · rintro (hx | rfl)
      · exact hx
      · exact ha
  · simp

theorem nodup_push {l : List ℕ} (h : l.Nodup) : (push l a).Nodup := by
  rw [push]
  split
  · exact h
  · rename_i ha
    rw [List.nodup_append_comm]
    exact List.nodup_cons.mpr ⟨ha, h⟩

theorem mem_visit {l : List ℕ} {x : ℕ} :
    x ∈ s.visit l a ↔ (x ∈ l ∨ ∃ np, s.nick a = some np ∧ np.parent = some x) ∨ x = a := by
  rw [visit, mem_push]
  cases ha : s.nick a with
  | none => simp
  | some np =>
    cases hp : np.parent with
    | none => simp [hp]
    | some p => simp [hp, mem_push, eq_comm]

theorem nodup_visit {l : List ℕ} (h : l.Nodup) : (s.visit l a).Nodup := by
  refine nodup_push ?_
  cases (s.nick a).bind fun np => np.parent with
  | none => exact h
  | some p => exact nodup_push h

/-- Every nick is written, and once. -/
theorem writeOrder_spec (hs : Sound [] s) :
    s.writeOrder.Nodup ∧ ∀ a, a ∈ s.writeOrder ↔ a ∈ s.nicks := by
  have hfold : ∀ l₂ l : List ℕ, l.Nodup → (∀ a ∈ l₂, s.nick a ≠ none) → (∀ a ∈ l, s.nick a ≠ none) →
      (l₂.foldl s.visit l).Nodup ∧ (∀ a ∈ l₂.foldl s.visit l, s.nick a ≠ none) ∧
        ∀ a, a ∈ l ∨ a ∈ l₂ → a ∈ l₂.foldl s.visit l := by
    intro l₂
    induction l₂ with
    | nil =>
      intro l hnodup _ hl
      exact ⟨hnodup, hl, fun a ha => ha.resolve_right List.not_mem_nil⟩
    | cons c l₂ ih =>
      intro l hnodup hl₂ hl
      obtain ⟨hnodup', halive, hmem⟩ := ih (s.visit l c) (nodup_visit hnodup)
        (fun a ha => hl₂ a (List.mem_cons_of_mem c ha)) (fun a ha => by
          rcases mem_visit.mp ha with (ha | ⟨np, hnp, hp⟩) | rfl
          · exact hl a ha
          · obtain ⟨pp, hpp, -⟩ := hs.parent c np a hnp hp
            rw [hpp]
            simp
          · exact hl₂ a List.mem_cons_self)
      refine ⟨hnodup', halive, fun a ha => hmem a ?_⟩
      rw [mem_visit, List.mem_cons] at *
      tauto
  obtain ⟨hnodup, halive, hmem⟩ := hfold s.nicks [] List.nodup_nil (fun a ha => (hs.mem a).mp ha)
    (fun a ha => absurd ha List.not_mem_nil)
  exact ⟨hnodup, fun a => ⟨fun ha => (hs.mem a).mpr (halive a ha), fun ha => hmem a (.inr ha)⟩⟩

/-- The walk is exact if and only if no nick is due. -/
theorem exact_iff (e : Expiry) (s : NickStore) (hs : Sound [] s) (hsync : Unmarked s) :
    Exact e s ↔ ∀ a np, s.nick a = some np → due e np = false := by
  constructor
  · rintro ⟨n, w, hw, hdone, -⟩ b np hnp
    by_contra hdue
    have hb : b ∈ s.nicks := (hs.mem b).mpr (by simp [hnp])
    obtain ⟨a, l, hnicks⟩ := List.exists_cons_of_ne_nil (List.ne_nil_of_mem hb)
    have hdoomed : Doomed e (Walk.start s) := by
      refine .ahead [] a l b ?_ hnicks hs.nodup (hnicks ▸ hb)
        ⟨np, hnp, (Bool.not_eq_false _).mp hdue⟩
      rw [Walk.start, hnicks]
      rfl
    exact hdoomed.not_done hw hdone
  · intro hdue
    obtain ⟨hnodup, hmem⟩ := writeOrder_spec hs
    have hnone : ∀ a, (s.mark s.writeOrder).nick a = none ↔ s.nick a = none :=
      fun a => Option.map_eq_none_iff
    refine ⟨s.nicks.length, _, run_start hs hsync hdue, rfl, fun a ha => ?_, fun a => ?_,
      fun a => ?_⟩
    · refine iff_of_false (fun hgone => ha ((hnone a).mp hgone)) ?_
      rintro ⟨b, np, -, hnp, hb⟩
      rw [hdue b np hnp] at hb
      cases hb
    · exact (hs.mem a).trans (hnone a).not.symm
    · change s.writeOrder.count a = if a ∈ s.nicks then 1 else 0
      split
      · rename_i ha
        exact List.count_eq_one_of_mem hnodup ((hmem a).mpr ha)
      · rename_i ha
        exact List.count_eq_zero.mpr fun hin => ha ((hmem a).mp hin)

/-! ### One nick -/

/-- A store with one nick. -/
def loneNick (np : NickRecord) (mcp : MailContact) : NickStore where
  nick := Function.update (fun _ => none) 0
    (some { np with email := some 0, parent := none, links := [] })
  nicks := [0]
  contact := Function.update (fun _ => none) 0 (some { mcp with nicks := 1 })
  mails := [0]

theorem loneNick_self (np : NickRecord) (mcp : MailContact) :
    (loneNick np mcp).nick 0 = some { np with email := some 0, parent := none, links := [] } ∧
      (loneNick np mcp).contact 0 = some { mcp with nicks := 1 } := by
  simp [loneNick]

theorem loneNick_eq {mcp : MailContact} {np' : NickRecord}
    (ha : (loneNick np mcp).nick a = some np') :
    a = 0 ∧ np' = { np with email := some 0, parent := none, links := [] } := by
  rw [loneNick] at ha
  dsimp only at ha
  by_cases h0 : a = 0
  · rw [h0, Function.update_self] at ha
    exact ⟨h0, (Option.some.inj ha).symm⟩
  · rw [Function.update_of_ne h0] at ha
    cases ha

theorem loneNick_contact_eq {m : ℕ} {mcp mcp' : MailContact}
    (hm : (loneNick np mcp).contact m = some mcp') : m = 0 ∧ mcp' = { mcp with nicks := 1 } := by
  rw [loneNick] at hm
  dsimp only at hm
  by_cases h0 : m = 0
  · rw [h0, Function.update_self] at hm
    exact ⟨h0, (Option.some.inj hm).symm⟩
  · rw [Function.update_of_ne h0] at hm
    cases hm

theorem sound_loneNick (np : NickRecord) (mcp : MailContact) : Sound [] (loneNick np mcp) where
  nodup := List.nodup_singleton 0
  mem a := by
    rw [loneNick]
    by_cases h0 : a = 0 <;> simp [h0]
  parent a np' p ha hp := by
    obtain ⟨-, rfl⟩ := loneNick_eq ha
    cases hp
  links p pp hp := by
    obtain ⟨-, rfl⟩ := loneNick_eq hp
    exact ⟨List.nodup_nil, fun a ha => absurd ha List.not_mem_nil⟩
  email a np' ha _ := by
    obtain ⟨-, rfl⟩ := loneNick_eq ha
    exact ⟨0, _, rfl, (loneNick_self np mcp).2⟩
  count m mcp' hm := by
    obtain ⟨rfl, rfl⟩ := loneNick_contact_eq hm
    exact ⟨rfl, Int.one_pos⟩
  mails := List.nodup_singleton 0
  mem_mails m := by
    rw [loneNick]
    by_cases h0 : m = 0 <;> simp [h0]

/-- A nick that was last seen at the time zero, with an address. -/
def plainNick : NickRecord where
  name := bytes "luthien"
  user := bytes "lu"
  host := bytes "doriath.net"
  pass := bytes "secret"
  info := bytes "Tinuviel"
  last := 0
  regtime := 0
  flags := 0
  intflags := NICK_IFL_ACTIVATED
  alist := [(bytes "*", bytes "*.doriath.net")]
  parent := none
  email := none
  links := []

def plainMail : MailContact := ⟨bytes "lu@doriath.net", 1, 0⟩

theorem unmarked_loneNick : Unmarked (loneNick plainNick plainMail) := by
  intro a np hnp
  obtain ⟨-, rfl⟩ := loneNick_eq hnp
  decide

theorem exact_iff_loneNick : Exact ⟨100, 50⟩ (loneNick plainNick plainMail) := by
  refine (exact_iff ⟨100, 50⟩ _ (sound_loneNick plainNick plainMail) unmarked_loneNick).mpr ?_
  intro a np hnp
  obtain ⟨-, rfl⟩ := loneNick_eq hnp
  decide

/-- One nick that is due is enough. -/
theorem exact_fails : ¬ ∀ (e : Expiry) (s : NickStore), Sound [] s → Unmarked s → Exact e s := by
  intro h
  have hexact := h ⟨100, 100⟩ _ (sound_loneNick plainNick plainMail) unmarked_loneNick
  obtain ⟨n, w, hw, hdone, -⟩ := hexact
  have hdoomed : Doomed ⟨100, 100⟩ (Walk.start (loneNick plainNick plainMail)) :=
    .ahead [] 0 [] 0 rfl rfl (List.nodup_singleton 0) List.mem_cons_self
      ⟨_, (loneNick_self plainNick plainMail).1, by decide⟩
  exact hdoomed.not_done hw hdone

end Ithildin.NickStore
