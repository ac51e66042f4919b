import Ithildin.Channel.Membership
import Ithildin.Lib.Places

/-!
# Links, lists, counters and the channel table agree

* `Linked`: the invariant;
* one lemma for each operation of `channel.c`, one for each command;
* `linked_of_run`: it holds in every run whose SJOINs put nobody on a channel twice and nobody on an
  empty one.
-/

namespace Ithildin

namespace Channels

/-- Every link is on exactly its channel's list and its client's list, and once on each; a client
and a channel have at most one link; the counters count; no channel of the table is empty, the
`spare` one apart, if there is one.  Links have channels and clients that exist; new numbers are
new. -/
structure Linked (spare : Option ℕ) (s : Channels) : Prop where
  users_mem : ∀ l c, l ∈ s.users c ↔ l ∈ s.links ∧ (s.link l).chan = c
  chans_mem : ∀ l k, l ∈ s.chans k ↔ l ∈ s.links ∧ (s.link l).cli = k
  users_nodup : ∀ c, (s.users c).Nodup
  chans_nodup : ∀ k, (s.chans k).Nodup
  once : ∀ l ∈ s.links, ∀ l' ∈ s.links, s.link l = s.link l' → l = l'
  counted : ∀ c ∈ s.table, s.onchannel c = (s.users c).length
  peopled : ∀ c ∈ s.table, s.users c = [] → spare = some c
  chan_live : ∀ l ∈ s.links, (s.link l).chan ∈ s.table
  cli_live : ∀ l ∈ s.links, (s.link l).cli ∈ s.clients
  link_lt : ∀ l ∈ s.links, l < s.freshLink
  chan_lt : ∀ c ∈ s.table, c < s.freshChan
  cli_lt : ∀ k ∈ s.clients, k < s.freshClient

variable {conf : ChannelConf} {spare : Option ℕ} {s : Channels}

theorem linked_start : Linked none start := by
  constructor <;> simp [start]

/-! ### Looking up links -/

theorem Linked.findChanLink_eq_some (h : s.Linked spare) {k c l : ℕ} :
    s.findChanLink k c = some l ↔ l ∈ s.links ∧ s.link l = ⟨k, c⟩ := by
  constructor
  · intro hfind
    have hmem := List.mem_of_find?_eq_some hfind
    have hchan := List.find?_some hfind
    rw [h.chans_mem] at hmem
    rw [decide_eq_true_eq] at hchan
    refine ⟨hmem.1, ?_⟩
    rw [← hmem.2, ← hchan]
  · rintro ⟨hl, hlink⟩
    have hmem : l ∈ s.chans k := by
      rw [h.chans_mem, hlink]
      exact ⟨hl, rfl⟩
    cases hfind : s.findChanLink k c with
    | none =>
      have hnone := List.find?_eq_none.1 hfind l hmem
      simp [hlink] at hnone
    | some l' =>
      have hmem' := List.mem_of_find?_eq_some hfind
      have hchan' := List.find?_some hfind
      rw [h.chans_mem] at hmem'
      rw [decide_eq_true_eq] at hchan'
      have hlink' : s.link l' = ⟨k, c⟩ := by
        rw [← hmem'.2, ← hchan']
      rw [h.once l' hmem'.1 l hl (hlink'.trans hlink.symm)]

theorem Linked.isOn_iff (h : s.Linked spare) {k c : ℕ} :
    s.isOn k c = true ↔ ∃ l ∈ s.links, s.link l = ⟨k, c⟩ := by
  rw [isOn, Option.isSome_iff_exists]
  exact exists_congr fun l => h.findChanLink_eq_some

theorem mem_table_of_findChannel {name : Bytes} {c : ℕ} (h : s.findChannel conf name = some c) :
    c ∈ s.table := List.mem_of_find?_eq_some h

theorem mem_clients_of_findClient {nick : Bytes} {k : ℕ} (h : s.findClient conf nick = some k) :
    k ∈ s.clients := List.mem_of_find?_eq_some h

/-! ### channel.c -/

theorem Linked.freshLink_not_mem (h : s.Linked spare) : s.freshLink ∉ s.links :=
  fun hmem => absurd (h.link_lt _ hmem) (lt_irrefl _)

theorem Linked.freshChan_not_mem (h : s.Linked spare) : s.freshChan ∉ s.table :=
  fun hmem => absurd (h.chan_lt _ hmem) (lt_irrefl _)

/-- The new channel is empty for the moment. -/
theorem Linked.createChannel (h : s.Linked none) (name : Bytes) (created : ℤ) :
    (s.createChannel conf name created).Linked (some s.freshChan) where
  users_mem := by
    intro l c
    by_cases hc : c = s.freshChan
    · subst hc
      have hno : ¬ (l ∈ s.links ∧ (s.link l).chan = s.freshChan) := by
        rintro ⟨hl, hchan⟩
        exact h.freshChan_not_mem (hchan ▸ h.chan_live l hl)
      simpa [Channels.createChannel] using hno
    · simpa [Channels.createChannel, hc] using h.users_mem l c
  chans_mem := h.chans_mem
  users_nodup := by
    intro c
    by_cases hc : c = s.freshChan
    · simp [Channels.createChannel, hc]
    · simpa [Channels.createChannel, hc] using h.users_nodup c
  chans_nodup := h.chans_nodup
  once := h.once
  counted := by
    intro c hmem
    by_cases hc : c = s.freshChan
    · simp [Channels.createChannel, hc]
    · have hold : c ∈ s.table := by simpa [Channels.createChannel, hc] using hmem
      simpa [Channels.createChannel, hc] using h.counted c hold
  peopled := by
    intro c hmem hempty
    by_cases hc : c = s.freshChan
    · rw [hc]
    · have hold : c ∈ s.table := by simpa [Channels.createChannel, hc] using hmem
      have hnone := h.peopled c hold (by simpa [Channels.createChannel, hc] using hempty)
      cases hnone
  chan_live := fun l hl => List.mem_cons_of_mem _ (h.chan_live l hl)
  cli_live := h.cli_live
  link_lt := h.link_lt
  chan_lt := by
    intro c hmem
    rcases List.mem_cons.1 hmem with rfl | hold
    · exact Nat.lt_succ_self _
    · exact (h.chan_lt c hold).trans (Nat.lt_succ_self _)
  cli_lt := h.cli_lt

/-! ### The lists that links are on -/

/-- The list that a link is on, of its channel or of its client. -/
def placeOf (s : Channels) (field : Chanlink → ℕ) (l : ℕ) : Option ℕ :=
  if l ∈ s.links then some (field (s.link l)) else none

section
variable {lists : ℕ → List ℕ} {field : Chanlink → ℕ}

theorem placeOf_eq_some {l a : ℕ} :
    s.placeOf field l = some a ↔ l ∈ s.links ∧ field (s.link l) = a := by
  unfold placeOf
  split_ifs with hl <;> simp [hl]

theorem placed_iff : Places.Placed lists (s.placeOf field) ↔
    (∀ l a, l ∈ lists a ↔ l ∈ s.links ∧ field (s.link l) = a) ∧ ∀ a, (lists a).Nodup := by
  simp only [Places.Placed, placeOf_eq_some]
  exact ⟨fun h => ⟨fun l a => (h a).2 l, fun a => (h a).1⟩, fun h a => ⟨h.2 a, fun l => h.1 l a⟩⟩

theorem Linked.placed_users (h : s.Linked spare) : Places.Placed s.users (s.placeOf (·.chan)) :=
  placed_iff.2 ⟨h.users_mem, h.users_nodup⟩

theorem Linked.placed_chans (h : s.Linked spare) : Places.Placed s.chans (s.placeOf (·.cli)) :=
  placed_iff.2 ⟨h.chans_mem, h.chans_nodup⟩

theorem mem_links_addToChannel {k c l : ℕ} :
    l ∈ (s.addToChannel k c).links ↔ l = s.freshLink ∨ l ∈ s.links := List.mem_cons

theorem link_addToChannel_fresh {k c : ℕ} : (s.addToChannel k c).link s.freshLink = ⟨k, c⟩ :=
  Function.update_self ..

theorem Linked.link_addToChannel (h : s.Linked spare) {k c l : ℕ} (hl : l ∈ s.links) :
    (s.addToChannel k c).link l = s.link l := by
  have hne : l ≠ s.freshLink := fun heq => h.freshLink_not_mem (heq ▸ hl)
  exact Function.update_of_ne hne ..

/-- The new link is at the head of its list. -/
theorem Linked.placed_addToChannel (h : s.Linked spare) (k c : ℕ)
    (hlists : Places.Placed lists (s.placeOf field)) :
    Places.Placed (Places.put true s.freshLink (field ⟨k, c⟩) lists)
      ((s.addToChannel k c).placeOf field) := by
  have hnone : s.placeOf field s.freshLink = none := if_neg h.freshLink_not_mem
  refine (hlists.put hnone true (field ⟨k, c⟩)).congr fun l => ?_
  by_cases hl : l = s.freshLink
  · rw [hl, Function.update_self, placeOf_eq_some, link_addToChannel_fresh]
    exact ⟨mem_links_addToChannel.2 (.inl rfl), rfl⟩
  · rw [Function.update_of_ne hl]
    simp only [placeOf, mem_links_addToChannel, or_iff_right hl]
    split_ifs with hmem
    · rw [h.link_addToChannel hmem]
    · rfl

theorem filter_ne_eq_erase {links : List ℕ} {l : ℕ} (h : links.Nodup) :
    links.filter (· ≠ l) = links.erase l := by
  rw [h.erase_eq_filter]
  congr 1
  funext l'
  by_cases hl' : l' = l <;> simp [hl']

/-- A link that is freed is on no list. -/
theorem placed_unlink {l k c a : ℕ} (hl : s.placeOf field l = some a)
    (hlists : Places.Placed lists (s.placeOf field)) :
    Places.Placed (Function.update lists a ((lists a).filter (· ≠ l)))
      ((s.unlink l k c).placeOf field) := by
  have htake := hlists.take l
  rw [hl, Places.take, ← filter_ne_eq_erase (hlists a).1] at htake
  refine htake.congr fun l' => ?_
  show (if l' ∈ s.links.filter (· ≠ l) then some (field (s.link l')) else none) = _
  by_cases hl' : l' = l
  · simp [hl']
  · rw [Function.update_of_ne hl']
    simp [placeOf, hl']

end

/-- A client that is not on a channel is put there: the channel is no longer empty. -/
theorem Linked.addToChannel (h : s.Linked spare) {k c : ℕ} (hk : k ∈ s.clients) (hc : c ∈ s.table)
    (hon : ∀ l ∈ s.links, s.link l ≠ ⟨k, c⟩) (hspare : ∀ d, spare = some d → d = c) :
    (s.addToChannel k c).Linked none where
  users_mem := (placed_iff.1 (h.placed_addToChannel k c h.placed_users)).1
  chans_mem := (placed_iff.1 (h.placed_addToChannel k c h.placed_chans)).1
  users_nodup := (placed_iff.1 (h.placed_addToChannel k c h.placed_users)).2
  chans_nodup := (placed_iff.1 (h.placed_addToChannel k c h.placed_chans)).2
  once := by
    intro l hl l' hl' heq
    rcases mem_links_addToChannel.1 hl with rfl | hl
    · rcases mem_links_addToChannel.1 hl' with rfl | hl'
      · rfl
      · rw [link_addToChannel_fresh, h.link_addToChannel hl'] at heq
        exact absurd heq.symm (hon l' hl')
    · rcases mem_links_addToChannel.1 hl' with rfl | hl'
      · rw [link_addToChannel_fresh, h.link_addToChannel hl] at heq
        exact absurd heq (hon l hl)
      · rw [h.link_addToChannel hl, h.link_addToChannel hl'] at heq
        exact h.once l hl l' hl' heq
  counted := by
    intro c' hmem
    show Function.update s.onchannel c (s.onchannel c + 1) c' =
      ((Places.put true s.freshLink c s.users c').length : ℤ)
    by_cases hc' : c' = c
    · rw [hc', Function.update_self, Places.length_put_self, h.counted c hc]
      simp
    · rw [Places.put_of_ne hc', Function.update_of_ne hc']
      exact h.counted c' hmem
  peopled := by
    intro c' hmem hempty
    change Places.put true s.freshLink c s.users c' = [] at hempty
    by_cases hc' : c' = c
    · rw [hc', Places.put_self] at hempty
      cases hempty
    · rw [Places.put_of_ne hc'] at hempty
      exact absurd (hspare c' (h.peopled c' hmem hempty)) hc'
  chan_live := by
    intro l hl
    rcases mem_links_addToChannel.1 hl with rfl | hl
    · rw [link_addToChannel_fresh]
      exact hc
    · rw [h.link_addToChannel hl]
      exact h.chan_live l hl
  cli_live := by
    intro l hl
    rcases mem_links_addToChannel.1 hl with rfl | hl
    · rw [link_addToChannel_fresh]
      exact hk
    · rw [h.link_addToChannel hl]
      exact h.cli_live l hl
  link_lt := by
    intro l hl
    show l < s.freshLink + 1
    rcases mem_links_addToChannel.1 hl with rfl | hl
    · omega
    · have := h.link_lt l hl
      omega
  chan_lt := h.chan_lt
  cli_lt := h.cli_lt

/-- A link is freed; its channel may be left empty. -/
theorem Linked.unlink (h : s.Linked none) {l k c : ℕ} (hl : l ∈ s.links)
    (hlink : s.link l = ⟨k, c⟩) :
    (s.unlink l k c).Linked (some c) := by
  have hchan : s.placeOf (·.chan) l = some c := placeOf_eq_some.2 ⟨hl, by rw [hlink]⟩
  have hcli : s.placeOf (·.cli) l = some k := placeOf_eq_some.2 ⟨hl, by rw [hlink]⟩
  obtain ⟨husers, husers'⟩ := placed_iff.1 (@placed_unlink _ _ _ _ k c _ hchan h.placed_users)
  obtain ⟨hchans, hchans'⟩ := placed_iff.1 (@placed_unlink _ _ _ _ k c _ hcli h.placed_chans)
  exact {
    users_mem := husers
    chans_mem := hchans
    users_nodup := husers'
    chans_nodup := hchans'
    once := fun l₁ hl₁ l₂ hl₂ heq =>
      h.once l₁ (List.mem_of_mem_filter hl₁) l₂ (List.mem_of_mem_filter hl₂) heq
    counted := by
      intro c' hmem
      show Function.update s.onchannel c (s.onchannel c - 1) c' =
        ((Function.update s.users c _ c').length : ℤ)
      by_cases hc' : c' = c
      · have hlength := h.placed_users.length_take_self hchan
        rw [Places.take_self, ← filter_ne_eq_erase (h.users_nodup c)] at hlength
        rw [hc', Function.update_self, Function.update_self, h.counted c (hc' ▸ hmem)]
        omega
      · rw [Function.update_of_ne hc', Function.update_of_ne hc']
        exact h.counted c' hmem
    peopled := by
      intro c' hmem hempty
      by_cases hc' : c' = c
      · rw [hc']
      · have hold : s.users c' = [] := by
          rw [← hempty]
          exact (Function.update_of_ne hc' ..).symm
        cases h.peopled c' hmem hold
    chan_live := fun l' hl' => h.chan_live l' (List.mem_of_mem_filter hl')
    cli_live := fun l' hl' => h.cli_live l' (List.mem_of_mem_filter hl')
    link_lt := fun l' hl' => h.link_lt l' (List.mem_of_mem_filter hl')
    chan_lt := h.chan_lt
    cli_lt := h.cli_lt }

/-- A channel without users leaves the table. -/
theorem Linked.destroyChannel {c : ℕ} (h : s.Linked (some c)) (hempty : s.users c = []) :
    (s.destroyChannel c).Linked none where
  users_mem := h.users_mem
  chans_mem := h.chans_mem
  users_nodup := h.users_nodup
  chans_nodup := h.chans_nodup
  once := h.once
  counted := fun c' hc' => h.counted c' (List.mem_of_mem_filter hc')
  peopled := by
    intro c' hc' hnone
    have hmem := List.mem_filter.1 hc'
    have hspare : c = c' := Option.some.inj (h.peopled c' hmem.1 hnone)
    simp [hspare] at hmem
  chan_live := by
    intro l hl
    refine List.mem_filter.2 ⟨h.chan_live l hl, ?_⟩
    rw [decide_eq_true_eq]
    intro hchan
    have hin := (h.users_mem l c).2 ⟨hl, hchan⟩
    rw [hempty] at hin
    cases hin
  cli_live := h.cli_live
  link_lt := h.link_lt
  chan_lt := fun c' hc' => h.chan_lt c' (List.mem_of_mem_filter hc')
  cli_lt := h.cli_lt

/-- What is spare is empty, so a peopled channel is not. -/
theorem Linked.none_of_peopled {c : ℕ} (h : s.Linked (some c)) (hpeople : s.users c ≠ []) :
    s.Linked none where
  users_mem := h.users_mem
  chans_mem := h.chans_mem
  users_nodup := h.users_nodup
  chans_nodup := h.chans_nodup
  once := h.once
  counted := h.counted
  peopled := by
    intro c' hc' hnone
    obtain rfl : c = c' := Option.some.inj (h.peopled c' hc' hnone)
    exact absurd hnone hpeople
  chan_live := h.chan_live
  cli_live := h.cli_live
  link_lt := h.link_lt
  chan_lt := h.chan_lt
  cli_lt := h.cli_lt

theorem Linked.onchannel_eq_zero {c : ℕ} (h : s.Linked spare) (hc : c ∈ s.table) :
    s.onchannel c = 0 ↔ s.users c = [] := by
  rw [h.counted c hc]
  simp

/-- A client leaves a channel, and the channel goes with the last one. -/
theorem Linked.delFromChannel (h : s.Linked none) (k : ℕ) {c : ℕ} (hc : c ∈ s.table) :
    (s.delFromChannel k c).Linked none := by
  unfold Channels.delFromChannel
  cases hfind : s.findChanLink k c with
  | none =>
    have hpeople : s.onchannel c ≠ 0 := by
      rw [ne_eq, h.onchannel_eq_zero hc]
      intro hempty
      cases h.peopled c hc hempty
    simpa [hpeople] using h
  | some l =>
    obtain ⟨hl, hlink⟩ := h.findChanLink_eq_some.1 hfind
    have hunlink := h.unlink hl hlink
    have hzero : (s.unlink l k c).onchannel c = 0 ↔ (s.unlink l k c).users c = [] :=
      hunlink.onchannel_eq_zero hc
    dsimp only
    split
    · rename_i hcount
      exact hunlink.destroyChannel (hzero.1 hcount)
    · rename_i hcount
      exact hunlink.none_of_peopled fun hempty => hcount (hzero.2 hempty)

/-! ### Commands -/

/-- Names, creation times and nicks do not matter. -/
theorem Linked.relabel (h : s.Linked spare) (name : ℕ → Bytes) (created : ℕ → ℤ)
    (nick : ℕ → Bytes) :
    Linked spare { s with name := name, created := created, nick := nick } :=
  ⟨h.users_mem, h.chans_mem, h.users_nodup, h.chans_nodup, h.once, h.counted, h.peopled,
    h.chan_live, h.cli_live, h.link_lt, h.chan_lt, h.cli_lt⟩

theorem clients_delFromChannel (k c : ℕ) : (s.delFromChannel k c).clients = s.clients := by
  unfold Channels.delFromChannel
  cases s.findChanLink k c with
  | none =>
    dsimp only
    split <;> rfl
  | some l =>
    dsimp only
    split <;> rfl

/-- The invariant, and the clients that were registered. -/
def LinkedFor (clients : List ℕ) (s : Channels) : Prop := s.Linked none ∧ s.clients = clients

variable {clients : List ℕ}

theorem LinkedFor.delFromChannel (h : s.LinkedFor clients) (k : ℕ) {c : ℕ} (hc : c ∈ s.table) :
    (s.delFromChannel k c).LinkedFor clients :=
  ⟨h.1.delFromChannel k hc, (clients_delFromChannel k c).trans h.2⟩

theorem LinkedFor.part (h : s.LinkedFor clients) (k : ℕ) (name : Bytes) :
    (s.part conf k name).LinkedFor clients := by
  unfold Channels.part
  split
  · split
    · rename_i c hfind
      split
      · exact h.delFromChannel k (mem_table_of_findChannel hfind)
      · exact h
    · exact h
  · exact h

theorem LinkedFor.parts (h : s.LinkedFor clients) (k : ℕ) (names : List Bytes) :
    (names.foldl (Channels.part conf k) s).LinkedFor clients := by
  induction names generalizing s with
  | nil => exact h
  | cons name names ih => exact ih (h.part k name)

theorem LinkedFor.joinZero (h : s.LinkedFor clients) {k n : ℕ} {s' : Channels}
    (hjoin : joinZero conf k n s = some s') : s'.LinkedFor clients := by
  induction n generalizing s with
  | zero => cases hjoin
  | succ n ih =>
    rw [Channels.joinZero] at hjoin
    split at hjoin
    · cases hjoin
      exact h
    · refine ih (LinkedFor.parts ?_ k _) hjoin
      exact ⟨h.1.relabel _ _ _, h.2⟩

/-- A client joins a channel it is not on, and stays or leaves again. -/
theorem joinChannel_linked (h : s.Linked spare) (hclients : s.clients = clients) {k c : ℕ}
    (hk : k ∈ clients) (hc : c ∈ s.table) (hon : ∀ l ∈ s.links, s.link l ≠ ⟨k, c⟩)
    (hspare : ∀ d, spare = some d → d = c) (stays : Bool) :
    (s.joinChannel conf k c stays).LinkedFor clients := by
  have hadd : (s.addToChannel k c).LinkedFor clients :=
    ⟨h.addToChannel (hclients ▸ hk) hc hon hspare, hclients⟩
  unfold joinChannel
  dsimp only
  split
  · exact hadd.delFromChannel k hc
  · exact hadd

theorem not_isOn_iff (h : s.Linked spare) {k c : ℕ} :
    ¬ s.isOn k c = true ↔ ∀ l ∈ s.links, s.link l ≠ ⟨k, c⟩ := by
  rw [h.isOn_iff]
  simp

/-- Nobody is on a new channel. -/
theorem Linked.not_on_fresh (h : s.Linked spare) (k : ℕ) :
    ∀ l ∈ s.links, s.link l ≠ ⟨k, s.freshChan⟩ := by
  intro l hl heq
  have hlive := h.chan_live l hl
  rw [heq] at hlive
  exact h.freshChan_not_mem hlive

theorem LinkedFor.joinOne (h : s.LinkedFor clients) {now : ℤ} {k : ℕ} (hk : k ∈ clients)
    {name : Bytes} {stays : Bool} {s' : Channels}
    (hjoin : joinOne conf now k s name stays = some s') : s'.LinkedFor clients := by
  unfold Channels.joinOne at hjoin
  split at hjoin
  · cases hjoin
    exact h
  · split at hjoin
    · cases hjoin
      exact h
    · split at hjoin
      · exact h.joinZero hjoin
      · split at hjoin
        · -- the channel is new
          cases hjoin
          refine joinChannel_linked (h.1.createChannel name now) h.2 hk List.mem_cons_self
            (h.1.not_on_fresh k) ?_ stays
          rintro d ⟨⟩
          rfl
        · rename_i c hfind
          split at hjoin
          · cases hjoin
            exact h
          · rename_i hon
            cases hjoin
            refine joinChannel_linked h.1 h.2 hk (mem_table_of_findChannel hfind)
              ((not_isOn_iff h.1).1 hon) ?_ stays
            rintro d ⟨⟩

theorem LinkedFor.join (h : s.LinkedFor clients) {now : ℤ} {k : ℕ} (hk : k ∈ clients)
    {names : List (Bytes × Bool)} {s' : Channels} (hjoin : join conf now k s names = some s') :
    s'.LinkedFor clients := by
  induction names generalizing s with
  | nil =>
    cases hjoin
    exact h
  | cons name names ih =>
    rw [Channels.join, Option.bind_eq_some_iff] at hjoin
    obtain ⟨s₁, hone, hrest⟩ := hjoin
    exact ih (h.joinOne hk hone) hrest

/-- The client of a line is not on its channel yet. -/
def NewTo (conf : ChannelConf) (s : Channels) (name : Bytes) (k : ℕ) : Prop :=
  ∀ c, s.findChannel conf name = some c → s.isOn k c = false

theorem Linked.clientSjoin (h : s.Linked none) {k : ℕ} (hk : k ∈ s.clients) {ts : ℤ} {name : Bytes}
    (hnew : conf.myClient k = true ∨ s.NewTo conf name k) :
    (s.clientSjoin conf k ts name).Linked none := by
  unfold Channels.clientSjoin
  split
  · exact h
  · rename_i hmine
    have hoff := hnew.resolve_left hmine
    split
    · refine (h.createChannel name ts).addToChannel hk List.mem_cons_self (h.not_on_fresh k) ?_
      rintro d ⟨⟩
      rfl
    · rename_i c hfind
      refine h.addToChannel hk (mem_table_of_findChannel hfind) ?_ ?_
      · rw [← not_isOn_iff h, hoff c hfind]
        exact Bool.false_ne_true
      · rintro d ⟨⟩

/-- The clients that a list of members names, as far as they are known. -/
def knownMembers (conf : ChannelConf) (s : Channels) (l : List Bytes) : List ℕ :=
  l.filterMap fun member => s.findClient conf (splitPrefixes conf member).2

theorem Linked.sjoinLoop (h : s.Linked spare) {changeok : Bool} {c : ℕ} {l : List Bytes}
    {s' : Channels} (hloop : sjoinLoop conf changeok c s l = some s') (hc : c ∈ s.table)
    (hspare : ∀ d, spare = some d → d = c) (hnodup : (s.knownMembers conf l).Nodup)
    (hoff : ∀ k ∈ s.knownMembers conf l, ∀ x ∈ s.links, s.link x ≠ ⟨k, c⟩)
    (hsome : spare = none ∨ s.knownMembers conf l ≠ []) : s'.Linked none := by
  induction l generalizing s spare with
  | nil =>
    cases hloop
    rcases hsome with rfl | hne
    · exact h
    · exact absurd rfl hne
  | cons member l ih =>
    unfold Channels.sjoinLoop at hloop
    dsimp only at hloop
    split at hloop
    · -- a client that is known joins
      rename_i k hfind
      have hknown : s.knownMembers conf (member :: l) = k :: s.knownMembers conf l := by
        simp [knownMembers, hfind]
      rw [hknown, List.nodup_cons] at hnodup
      rw [hknown, List.forall_mem_cons] at hoff
      split at hloop
      · cases hloop
      · have hadd := h.addToChannel (mem_clients_of_findClient hfind) hc hoff.1 hspare
        refine ih hadd hloop hc ?_ hnodup.2 ?_ (.inl rfl)
        · rintro d ⟨⟩
        · intro k' hk' x hx
          rcases mem_links_addToChannel.1 hx with rfl | hx
          · rw [link_addToChannel_fresh]
            intro heq
            obtain rfl : k = k' := congrArg Chanlink.cli heq
            exact hnodup.1 hk'
          · rw [h.link_addToChannel hx]
            exact hoff.2 k' hk' x hx
    · rename_i hfind
      have hknown : s.knownMembers conf (member :: l) = s.knownMembers conf l := by
        simp [knownMembers, hfind]
      rw [hknown] at hnodup hoff hsome
      exact ih h hloop hc hspare hnodup hoff hsome

theorem Linked.serverSjoin (h : s.Linked none) {ts created : ℤ} {name members : Bytes}
    {s' : Channels} (hjoin : s.serverSjoin conf ts name created members = some s')
    (hnodup : (s.knownMembers conf (listed members)).Nodup)
    (hoff : ∀ k ∈ s.knownMembers conf (listed members), s.NewTo conf name k)
    (hsome : s.findChannel conf name = none → s.knownMembers conf (listed members) ≠ []) :
    s'.Linked none := by
  unfold Channels.serverSjoin at hjoin
  cases hfind : s.findChannel conf name with
  | none =>
    rw [hfind] at hjoin
    refine ((h.createChannel name ts).relabel _ _ _).sjoinLoop hjoin List.mem_cons_self ?_ hnodup ?_
      (.inr (hsome hfind))
    · rintro d ⟨⟩
      rfl
    · exact fun k _ => h.not_on_fresh k
  | some c =>
    rw [hfind] at hjoin
    refine (h.relabel _ _ _).sjoinLoop hjoin (mem_table_of_findChannel hfind) ?_ hnodup ?_
      (.inl rfl)
    · rintro d ⟨⟩
    · intro k hk
      show ∀ x ∈ s.links, s.link x ≠ ⟨k, c⟩
      rw [← not_isOn_iff h, hoff k hk c hfind]
      exact Bool.false_ne_true

theorem chans_delFromChannel {k c l : ℕ} (hfind : s.findChanLink k c = some l) :
    (s.delFromChannel k c).chans k = (s.chans k).filter (· ≠ l) := by
  unfold Channels.delFromChannel
  rw [hfind]
  dsimp only
  split
  · exact Function.update_self ..
  · exact Function.update_self ..

/-- A client that goes leaves every channel it is on. -/
theorem LinkedFor.leaveAll (h : s.LinkedFor clients) {k n : ℕ} (hn : (s.chans k).length ≤ n) :
    (leaveAll k n s).LinkedFor clients ∧ (leaveAll k n s).chans k = [] := by
  induction n generalizing s with
  | zero => exact ⟨h, List.eq_nil_of_length_eq_zero (Nat.le_zero.1 hn)⟩
  | succ n ih =>
    unfold Channels.leaveAll
    split
    · rename_i hnil
      exact ⟨h, hnil⟩
    · rename_i l rest hcons
      have hmem : l ∈ s.links ∧ (s.link l).cli = k := by
        rw [← h.1.chans_mem, hcons]
        exact List.mem_cons_self
      have hfind : s.findChanLink k (s.link l).chan = some l := by
        rw [h.1.findChanLink_eq_some]
        refine ⟨hmem.1, ?_⟩
        rw [← hmem.2]
      refine ih (h.delFromChannel k (h.1.chan_live l hmem.1)) ?_
      have hrest : (l :: rest).filter (· ≠ l) = rest.filter (· ≠ l) := by simp
      rw [chans_delFromChannel hfind, hcons, hrest]
      rw [hcons, List.length_cons] at hn
      have := List.length_filter_le (· ≠ l) rest
      omega

theorem Linked.destroyClient (h : s.Linked none) (k : ℕ) : (s.destroyClient k).Linked none := by
  have hfor : s.LinkedFor s.clients := ⟨h, rfl⟩
  obtain ⟨⟨hleft, -⟩, hchans⟩ := hfor.leaveAll (le_refl (s.chans k).length)
  unfold Channels.destroyClient
  dsimp only
  generalize leaveAll k (s.chans k).length s = left at hleft hchans
  refine ⟨hleft.users_mem, hleft.chans_mem, hleft.users_nodup, hleft.chans_nodup, hleft.once,
    hleft.counted, hleft.peopled, hleft.chan_live, ?_, hleft.link_lt, hleft.chan_lt, ?_⟩
  · intro l hl
    refine List.mem_filter.2 ⟨hleft.cli_live l hl, ?_⟩
    rw [decide_eq_true_eq]
    intro hcli
    have hin := (hleft.chans_mem l k).2 ⟨hl, hcli⟩
    rw [hchans] at hin
    cases hin
  · exact fun k' hk' => hleft.cli_lt k' (List.mem_of_mem_filter hk')

theorem Linked.registerClient (h : s.Linked none) (nick : Bytes) :
    (s.registerClient nick).Linked none where
  users_mem := h.users_mem
  chans_mem := by
    intro l k
    show l ∈ Function.update s.chans s.freshClient [] k ↔ _
    by_cases hk : k = s.freshClient
    · rw [hk, Function.update_self]
      simp only [List.not_mem_nil, false_iff, not_and]
      intro hl hcli
      have hlt := h.cli_lt _ (h.cli_live l hl)
      exact absurd hcli (Nat.ne_of_lt hlt)
    · rw [Function.update_of_ne hk]
      exact h.chans_mem l k
  users_nodup := h.users_nodup
  chans_nodup := by
    intro k
    show (Function.update s.chans s.freshClient [] k).Nodup
    by_cases hk : k = s.freshClient
    · rw [hk, Function.update_self]
      exact List.nodup_nil
    · rw [Function.update_of_ne hk]
      exact h.chans_nodup k
  once := h.once
  counted := h.counted
  peopled := h.peopled
  chan_live := h.chan_live
  cli_live := fun l hl => List.mem_cons_of_mem _ (h.cli_live l hl)
  link_lt := h.link_lt
  chan_lt := h.chan_lt
  cli_lt := by
    intro k hk
    show k < s.freshClient + 1
    rcases List.mem_cons.1 hk with rfl | hk
    · omega
    · have := h.cli_lt k hk
      omega

/-! ### Runs -/

/-- Every link is on exactly its channel's list and its client's list, once on each; a client and a
channel have at most one link; the counters count; every channel of the table has users. -/
structure Consistent (s : Channels) : Prop where
  users_mem : ∀ l c, l ∈ s.users c ↔ l ∈ s.links ∧ (s.link l).chan = c
  chans_mem : ∀ l k, l ∈ s.chans k ↔ l ∈ s.links ∧ (s.link l).cli = k
  users_nodup : ∀ c, (s.users c).Nodup
  chans_nodup : ∀ k, (s.chans k).Nodup
  once : ∀ l ∈ s.links, ∀ l' ∈ s.links, s.link l = s.link l' → l = l'
  counted : ∀ c ∈ s.table, s.onchannel c = (s.users c).length
  peopled : ∀ c ∈ s.table, s.users c ≠ []

theorem Linked.consistent (h : s.Linked none) : s.Consistent := by
  refine ⟨h.users_mem, h.chans_mem, h.users_nodup, h.chans_nodup, h.once, h.counted, ?_⟩
  intro c hc hempty
  cases h.peopled c hc hempty

/-- An event that puts nobody on a channel twice and makes no channel without users: the client of
an SJOIN is not on the channel; the known clients that an SJOIN of a server lists are listed once
and not on the channel, and there is one if the channel is new. -/
def Orderly (conf : ChannelConf) (s : Channels) : Event → Prop
  | .clientSjoin k _ name => conf.myClient k = true ∨ s.NewTo conf name k
  | .serverSjoin _ name _ members =>
      (s.knownMembers conf (listed members)).Nodup ∧
        (∀ k ∈ s.knownMembers conf (listed members), s.NewTo conf name k) ∧
        (s.findChannel conf name = none → s.knownMembers conf (listed members) ≠ [])
  | _ => True

/-- An orderly event keeps the invariant. -/
theorem Linked.step (h : s.Linked none) {e : Event} (he : s.Orderly conf e) {s' : Channels}
    (hstep : s.step conf e = some s') : s'.Linked none := by
  cases e with
  | register nick =>
    cases hstep
    exact h.registerClient nick
  | nick k nick =>
    cases hstep
    exact h.relabel _ _ _
  | destroy k =>
    obtain ⟨-, hgone⟩ := Option.ite_none_right_eq_some.1 hstep
    cases hgone
    exact h.destroyClient k
  | join k now names =>
    obtain ⟨hk, hjoin⟩ := Option.ite_none_right_eq_some.1 hstep
    exact (LinkedFor.join ⟨h, rfl⟩ hk hjoin).1
  | clientSjoin k ts name =>
    obtain ⟨hk, hjoin⟩ := Option.ite_none_right_eq_some.1 hstep
    cases hjoin
    exact h.clientSjoin hk he
  | serverSjoin ts name created members => exact h.serverSjoin hstep he.1 he.2.1 he.2.2
  | del k c =>
    obtain ⟨⟨-, hc⟩, hgone⟩ := Option.ite_none_right_eq_some.1 hstep
    cases hgone
    exact h.delFromChannel k hc

/-- Links, lists, counters and the table agree in every state that orderly events lead to. -/
theorem consistent_of_run {conf : ChannelConf} {events : List Event} {s : Channels}
    (horderly : Run.Along (Channels.step conf) (Orderly conf) start events)
    (hrun : Run.run (Channels.step conf) start events = some s) : s.Consistent := by
  have hlinked : s.Linked none :=
    Run.run_invariant (fun _ _ _ hs he hstep => hs.step he hstep) linked_start horderly hrun
  exact hlinked.consistent

/-- A server that takes names as they are, without clients of its own. -/
def plainConf : ChannelConf where
  chanlen := 32
  sameChan := (· == ·)
  sameNick := (· == ·)
  nickMap := fun c => c != 64 && c != 43
  channame := fun name => name.head? == some 35
  myClient := fun _ => false
  maxChannels := fun _ => 0

/-- Two remote clients come and an SJOIN puts them on a channel. -/
def twoJoin : List Event :=
  [.register (bytes "a"), .register (bytes "b"),
    .serverSjoin 5 (bytes "#c") 5 (bytes "@a b")]

theorem consistent_of_run_two :
    ∃ s, Run.run (Channels.step plainConf) start twoJoin = some s ∧ s.Consistent := by
  refine ⟨_, rfl, @consistent_of_run plainConf twoJoin _ ⟨trivial, ?_⟩ rfl⟩
  rintro s₁ ⟨⟩
  refine ⟨trivial, ?_⟩
  rintro s₂ ⟨⟩
  refine ⟨⟨by decide, ?_, by decide⟩, fun _ _ => trivial⟩
  rintro k - c ⟨⟩

/-- An SJOIN of a client that is on the channel links it twice. -/
theorem consistent_fails :
    ¬ ∀ conf events s, Run.run (Channels.step conf) start events = some s → s.Consistent := by
  intro hall
  have hbad := hall plainConf (twoJoin ++ [.clientSjoin 0 5 (bytes "#c")]) _ rfl
  exact absurd (hbad.once 0 (by decide) 2 (by decide) rfl) (by decide)

end Channels

end Ithildin
