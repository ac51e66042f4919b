import Ithildin.Channel.Modes

/-!
# A change made again at another server

A change that a server accepts from one of its clients is made again, without a client, by a server
that holds the same modes.

* `SameNetwork`: the other server knows the clients under the same nicks;
* `Mirrors`: two servers hold the same for a channel, some of its modes set aside;
* `changeMode_mirrors`: an accepted change is accepted again, and they still do.
-/

namespace Ithildin

/-- The other server knows the same clients; its history may be another one. -/
structure SameNetwork (cl second : Clients) : Prop where
  find : ∀ c ∈ cl.online, second.findClient (cl.nick c) = some c
  nick : ∀ c ∈ cl.online, second.nick c = cl.nick c

/-- What the servers hold for a channel is the same, except for the modes `aside`. -/
structure Mirrors (aside : UInt8 → Prop) (x y : Chan) : Prop where
  created : y.created = x.created
  modes : ∀ m, ¬ aside m → y.modes m = x.modes m
  bans : ∀ m, ¬ aside m → y.bans m = x.bans m
  key : ∀ m, ¬ aside m → y.key m = x.key m
  limit : y.limit = x.limit
  users : y.users = x.users
  uflags : y.uflags = x.uflags

theorem Mirrors.refl (x : Chan) : Mirrors (fun _ => False) x x :=
  ⟨rfl, fun _ _ => rfl, fun _ _ => rfl, fun _ _ => rfl, rfl, rfl, rfl⟩

theorem Mirrors.mono {aside aside' : UInt8 → Prop} {x y : Chan} (h : Mirrors aside x y)
    (hmono : ∀ m, aside m → aside' m) : Mirrors aside' x y :=
  { h with
    modes := fun m hm => h.modes m fun ha => hm (hmono m ha)
    bans := fun m hm => h.bans m fun ha => hm (hmono m ha)
    key := fun m hm => h.key m fun ha => hm (hmono m ha) }

section

variable {t : ModeTable} {cl second : Clients} {aside : UInt8 → Prop} {x y : Chan} {c : UInt8}
  {set : Bool} {arg arg' : Option Bytes} {a : Actor}

theorem Mirrors.setFlag (h : Mirrors aside x y) (c : UInt8) (set : Bool) :
    Mirrors aside (x.setFlag c set) (y.setFlag c set) :=
  { h with
    modes := by
      intro m hm
      have hold := h.modes m hm
      by_cases hmc : m = c
      · simp [Chan.setFlag, hmc]
      · simp [Chan.setFlag, hmc, hold] }

theorem Mirrors.setBans (h : Mirrors aside x y) (c : UInt8) (l : BanList) :
    Mirrors aside (x.setBans c l) (y.setBans c l) :=
  { h with
    bans := by
      intro m hm
      have hold := h.bans m hm
      by_cases hmc : m = c
      · simp [Chan.setBans, hmc]
      · simp [Chan.setBans, hmc, hold] }

theorem Mirrors.setKey (h : Mirrors aside x y) (c : UInt8) (k : Bytes) :
    Mirrors aside (x.setKey c k) (y.setKey c k) :=
  { h with
    key := by
      intro m hm
      have hold := h.key m hm
      by_cases hmc : m = c
      · simp [Chan.setKey, hmc]
      · simp [Chan.setKey, hmc, hold] }

theorem Mirrors.setLimit (h : Mirrors aside x y) (c : UInt8) (n : ℕ) :
    Mirrors aside (x.setLimit c n) (y.setLimit c n) :=
  { h with limit := by simp [Chan.setLimit, h.limit] }

theorem Mirrors.setUflag (h : Mirrors aside x y) (cp : ℕ) (c : UInt8) (set : Bool) :
    Mirrors aside (x.setUflag cp c set) (y.setUflag cp c set) :=
  { h with uflags := by simp [Chan.setUflag, h.uflags] }

/-- A change is accepted as another one was, with the same argument, and leaves the same. -/
def Handled.Mirrors (aside : UInt8 → Prop) (h h' : Handled) : Prop :=
  h'.res = .ok ∧ h'.argused = h.argused ∧ Ithildin.Mirrors aside h.chan h'.chan

theorem chanmodeBan_mirrors (hxy : Mirrors aside x y) (hc : ¬ aside c)
    (hok : (chanmodeBan t (some a) x c set arg).res = .ok)
    (harg : ∀ w, (chanmodeBan t (some a) x c set arg).argused = some w → arg' = some w) :
    (chanmodeBan t (some a) x c set arg).Mirrors aside (chanmodeBan t none y c set arg') := by
  have hbans := hxy.bans c hc
  obtain ⟨w, b, -, hmask, ⟨rfl, hnew, hres⟩ | ⟨rfl, hres⟩⟩ := chanmodeBan_ok hok
  · have hagain : chanmodeBan t none y c true (some w) =
        ⟨.ok, y.setBans c ((x.bans c).insert b hnew), some w⟩ := by
      simp [chanmodeBan, denied, hmask, hbans, dif_pos hnew]
    rw [hres] at harg ⊢
    rw [harg w rfl, hagain]
    exact ⟨rfl, rfl, hxy.setBans c _⟩
  · have hagain : chanmodeBan t none y c false (some w) =
        ⟨.ok, y.setBans c ((x.bans c).remove b), some w⟩ := by
      simp [chanmodeBan, denied, hmask, hbans]
    rw [hres] at harg ⊢
    rw [harg w rfl, hagain]
    exact ⟨rfl, rfl, hxy.setBans c _⟩

/-- Only the key of its mode is what `chanmode_key` changes. -/
theorem chanmodeKey_frame (t : ModeTable) (cli : Option Actor) (x : Chan) (c : UInt8) (set : Bool)
    (arg : Option Bytes) : Mirrors (fun m => m = c) x (chanmodeKey t cli x c set arg).chan := by
  have hkey : ∀ k, Mirrors (fun m => m = c) x (x.setKey c k) := by
    intro k
    exact { Mirrors.refl x with
      modes := fun _ _ => rfl
      bans := fun _ _ => rfl
      key := fun m hm => by simp [Chan.setKey, hm] }
  have hflag : ∀ k b, Mirrors (fun m => m = c) x ((x.setKey c k).setFlag c b) := by
    intro k b
    exact { hkey k with modes := fun m hm => by simp [Chan.setFlag, Chan.setKey, hm] }
  have hrefl : Mirrors (fun m => m = c) x x := (Mirrors.refl x).mono fun _ => False.elim
  unfold chanmodeKey
  grind

/-- Only the list of its mode is what `chanmode_ban` changes. -/
theorem chanmodeBan_frame (t : ModeTable) (cli : Option Actor) (x : Chan) (c : UInt8) (set : Bool)
    (arg : Option Bytes) : Mirrors (fun m => m = c) x (chanmodeBan t cli x c set arg).chan := by
  have hrefl : Mirrors (fun m => m = c) x x := (Mirrors.refl x).mono fun _ => False.elim
  have hbans : ∀ l, Mirrors (fun m => m = c) x (x.setBans c l) := by
    intro l
    exact { hrefl with bans := fun m hm => by simp [Chan.setBans, hm] }
  unfold chanmodeBan
  grind

/-- A mode that is changed on both sides is set aside. -/
theorem Mirrors.of_frames (hxy : Mirrors aside x y) {x' y' : Chan}
    (hx : Mirrors (fun m => m = c) x x') (hy : Mirrors (fun m => m = c) y y') :
    Mirrors (fun m => aside m ∨ m = c) x' y' where
  created := by rw [hy.created, hxy.created, hx.created]
  modes := by
    intro m hm
    rw [not_or] at hm
    rw [hy.modes m hm.2, hxy.modes m hm.1, hx.modes m hm.2]
  bans := by
    intro m hm
    rw [not_or] at hm
    rw [hy.bans m hm.2, hxy.bans m hm.1, hx.bans m hm.2]
  key := by
    intro m hm
    rw [not_or] at hm
    rw [hy.key m hm.2, hxy.key m hm.1, hx.key m hm.2]
  limit := by rw [hy.limit, hxy.limit, hx.limit]
  users := by rw [hy.users, hxy.users, hx.users]
  uflags := by rw [hy.uflags, hxy.uflags, hx.uflags]

theorem chanmodeKey_set_none {w : Bytes} (hblank : blank ∉ w) (hcomma : commaSign ∉ w) :
    (chanmodeKey t none y c true (some w)).res = .ok ∧
      (chanmodeKey t none y c true (some w)).argused = some w := by
  unfold chanmodeKey
  simp only [denied]
  grind

theorem chanmodeKey_mirrors (hxy : Mirrors aside x y)
    (hok : (chanmodeKey t (some a) x c set arg).res = .ok)
    (harg : ∀ w, (chanmodeKey t (some a) x c set arg).argused = some w → arg' = some w) :
    (chanmodeKey t (some a) x c set arg).Mirrors (fun m => aside m ∨ (set ∧ m = c))
      (chanmodeKey t none y c set arg') := by
  obtain ⟨w, -, hused, ⟨rfl, hblank, hcomma⟩ | ⟨rfl, hres⟩⟩ := chanmodeKey_ok hok
  · obtain ⟨hok', hused'⟩ := chanmodeKey_set_none (t := t) (y := y) (c := c) hblank hcomma
    rw [harg w hused]
    refine ⟨hok', hused'.trans hused.symm, ?_⟩
    have hframes := hxy.of_frames (chanmodeKey_frame t (some a) x c true arg)
      (chanmodeKey_frame t none y c true (some w))
    exact hframes.mono fun m hm => hm.imp_right fun hmc => ⟨rfl, hmc⟩
  · have hagain : chanmodeKey t none y c false (some w) =
        ⟨.ok, (y.setKey c []).setFlag c false, some w⟩ := by
      simp [chanmodeKey, denied]
    rw [harg w hused, hres, hagain]
    exact ⟨rfl, rfl, ((hxy.setKey c []).setFlag c false).mono fun m hm => .inl hm⟩

theorem chanmodeLimit_mirrors (hxy : Mirrors aside x y)
    (hok : (chanmodeLimit t (some a) x c set arg).res = .ok)
    (harg : ∀ w, (chanmodeLimit t (some a) x c set arg).argused = some w → arg' = some w) :
    (chanmodeLimit t (some a) x c set arg).Mirrors aside (chanmodeLimit t none y c set arg') := by
  obtain ⟨rfl, w, -, hlimit, hres⟩ | ⟨rfl, hres⟩ := chanmodeLimit_ok hok
  · have hagain : chanmodeLimit t none y c true (some w) =
        ⟨.ok, (y.setLimit c (limitOf w)).setFlag c true, some w⟩ := by
      simp [chanmodeLimit, denied, hlimit]
    rw [hres] at harg ⊢
    rw [harg w rfl, hagain]
    exact ⟨rfl, rfl, (hxy.setLimit c _).setFlag c true⟩
  · have hagain : chanmodeLimit t none y c false arg' =
        ⟨.ok, (y.setLimit c 0).setFlag c false, none⟩ := by
      simp [chanmodeLimit, denied]
    rw [hres, hagain]
    exact ⟨rfl, rfl, (hxy.setLimit c 0).setFlag c false⟩

theorem chanmodeUflag_mirrors (hnet : SameNetwork cl second) (hxy : Mirrors aside x y)
    (hok : (chanmodeUflag t cl (some a) x c set arg).res = .ok)
    (harg : ∀ w, (chanmodeUflag t cl (some a) x c set arg).argused = some w → arg' = some w) :
    (chanmodeUflag t cl (some a) x c set arg).Mirrors aside
      (chanmodeUflag t second none y c set arg') := by
  obtain ⟨w, cp, -, hcp, huser, hres⟩ := chanmodeUflag_ok hok
  have honline : cp ∈ cl.online := by
    rcases Option.or_eq_some_iff.mp hcp with hfind | ⟨-, hhist⟩
    · exact cl.find_online w cp hfind
    · exact cl.history_online w cp hhist
  have hfind : second.getHistory (cl.nick cp) = some cp := by
    rw [Clients.getHistory, hnet.find cp honline]
    rfl
  have huser' : cp ∈ y.users := by rwa [hxy.users]
  have hagain : chanmodeUflag t second none y c set (some (cl.nick cp)) =
      ⟨.ok, y.setUflag cp c set, some (cl.nick cp)⟩ := by
    simp [chanmodeUflag, denied, hfind, huser', hnet.nick cp honline]
  rw [hres] at harg ⊢
  rw [harg _ rfl, hagain]
  exact ⟨rfl, rfl, hxy.setUflag cp c set⟩

/-- The change is made again with the argument that was used. -/
theorem changeMode_mirrors (hnet : SameNetwork cl second) (hxy : Mirrors aside x y)
    (hc : t.kind c = some .ban → ¬ aside c)
    (hok : (changeMode t cl (some a) x c set arg).res = .ok)
    (harg : ∀ w, (changeMode t cl (some a) x c set arg).argused = some w → arg' = some w) :
    ((changeMode t cl (some a) x c set arg).Mirrors
      (fun m => aside m ∨ (t.kind c = some .key ∧ set ∧ m = c))
      (changeMode t second none y c set arg')) := by
  unfold changeMode at hok harg ⊢
  cases hkind : t.kind c with
  | none => simp [hkind] at hok
  | some k =>
    simp only [hkind, Option.some.injEq] at hok harg ⊢
    have hmono : ∀ {h h' : Handled}, h.Mirrors aside h' →
        h.Mirrors (fun m => aside m ∨ (k = .key ∧ set ∧ m = c)) h' :=
      fun hm => ⟨hm.1, hm.2.1, hm.2.2.mono fun m ha => .inl ha⟩
    cases k with
    | ban => exact hmono (chanmodeBan_mirrors hxy (hc hkind) hok harg)
    | key =>
      have hm := chanmodeKey_mirrors hxy hok harg
      exact ⟨hm.1, hm.2.1, hm.2.2.mono fun m => Or.imp_right fun h => ⟨rfl, h⟩⟩
    | limit => exact hmono (chanmodeLimit_mirrors hxy hok harg)
    | flag =>
      rw [changefunc, chanmodeFlag_ok hok]
      exact hmono ⟨rfl, rfl, hxy.setFlag c set⟩
    | reg =>
      rw [changefunc, chanmodeReg_ok hok]
      exact hmono ⟨rfl, rfl, hxy.setFlag c set⟩
    | uflag => exact hmono (chanmodeUflag_mirrors hnet hxy hok harg)

end

end Ithildin
