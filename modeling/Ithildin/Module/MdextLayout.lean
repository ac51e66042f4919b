import Ithildin.Module.Mdext
import Mathlib.Data.List.Nodup

/-!
# The layout of extension data

The items lie side by side from 0 to the size of the header, and every object holds at each what was
put there. Creating and destroying items keeps that as long as the iterator comes to every object:
when its flag has been left set by a pass over no objects, the next pass comes to none
(`tiled_of_run`).
-/

namespace Ithildin

namespace Mdext

open Layout

/-! ### The layout -/

/-- Is the position in the item's range? -/
def Item.Covers (it : Item) (n : ℤ) : Prop :=
  it.offset ≤ n ∧ n < it.offset + it.size

/-- The bytes of an item in a block. -/
def Item.bytes (it : Item) (d : Bytes) : Bytes :=
  slice it.offset.toNat it.size d

/-- The items' ranges tile `[0, size)`, every object holds what it should for each of them, no pass
has left an object out and no block has been left. -/
structure Sound (s : State) : Prop where
  fault : s.fault = false
  skipped : s.skipped = false
  covered : ∀ n, (∃ it ∈ s.items, it.Covers n) ↔ 0 ≤ n ∧ n < s.size
  disjoint : s.items.Pairwise fun a b => ∀ n, ¬ (a.Covers n ∧ b.Covers n)
  held : ∀ o ∈ s.objs, ∀ it ∈ s.items, it.bytes (s.data o) = s.want o it.id

/-- What the steps keep. -/
structure Inv (s : State) : Prop where
  fault : s.fault = false
  skipped : s.skipped = false
  laid : Laid Item.offset Item.size 0 s.items s.size
  small : ∀ it ∈ s.items, it.offset < 2 ^ 31
  size_lt : s.size < 2 ^ 64
  ids : (s.items.map (·.id)).Nodup
  objs : s.objs.Nodup
  length : ∀ o ∈ s.objs, (s.data o).length = s.size
  held : ∀ o ∈ s.objs, ∀ it ∈ s.items, it.bytes (s.data o) = s.want o it.id

variable {s s' : State}

theorem Inv.sound (h : Inv s) : Sound s where
  fault := h.fault
  skipped := h.skipped
  covered := by
    intro n
    constructor
    · rintro ⟨it, hit, hlo, hhi⟩
      obtain ⟨hbase, hstop⟩ := h.laid.bounds hit
      exact ⟨hbase.trans hlo, by omega⟩
    · rintro ⟨hlo, hhi⟩
      exact h.laid.exists_mem hlo hhi
  disjoint := h.laid.pairwise.imp fun hle n ⟨⟨ha, _⟩, _, hb⟩ => by omega
  held := h.held

theorem inv_start : Inv start where
  fault := rfl
  skipped := rfl
  laid := rfl
  small := by simp [start]
  size_lt := Nat.two_pow_pos 64
  ids := List.nodup_nil
  objs := List.nodup_nil
  length := by simp [start]
  held := by simp [start]

theorem toInt_of_lt {n : ℕ} (h : n < 2 ^ 31) : toInt n = n := by
  unfold toInt
  have hbmod := @Int.bmod_eq_of_le n (2 ^ 32)
  omega

theorem toSize_of_lt {n : ℕ} (h : n < 2 ^ 64) : toSize n = n := by
  rw [toSize]
  omega

/-- An item's offset and its range are in the block. -/
theorem Inv.bounds (h : Inv s) {it : Item} (hit : it ∈ s.items) :
    0 ≤ it.offset ∧ it.offset + it.size ≤ s.size :=
  h.laid.bounds hit

/-! ### Creating an item -/

/-- The block of an object after an item of `size` bytes has been created. -/
theorem memset_realloc {d : Bytes} {size : ℕ} (junk : ℕ → UInt8) (h : d.length < 2 ^ 31) :
    memset (toInt d.length) size (realloc (d.length + size) junk d) =
      some (d ++ List.replicate size 0) := by
  have hlen : (realloc (d.length + size) junk d).length = d.length + size := by
    simp [realloc]
  rw [memset, toInt_of_lt h, if_pos ⟨by omega, by rw [hlen]; simp⟩, Int.toNat_natCast,
    List.drop_eq_nil_of_le hlen.le, List.append_nil, realloc,
    List.take_append_of_le_length (by simp), List.take_take]
  simp

theorem Inv.createItem (h : Inv s) {id size : ℕ} {junk : ℕ → ℕ → UInt8} (hready : Ready s)
    (hid : id ∉ s.items.map (·.id)) (hint : s.size < 2 ^ 31) (hsize : s.size + size < 2 ^ 64) :
    ∃ s', s.createItem id size junk = some s' ∧ Inv s' := by
  have htotal : toSize (s.size + size) = s.size + size := by exact_mod_cast toSize_of_lt hsize
  have hbody : ∀ o ∈ s.objs, memset (toInt s.size) size
      (realloc (s.size + size) (junk o) (s.data o)) =
        some (s.data o ++ List.replicate size 0) := by
    rintro o ho
    have hlen := h.length o ho
    rw [← hlen]
    exact memset_realloc (junk o) (by rwa [hlen])
  obtain ⟨started, -, hpass⟩ := @Ready.pass { s with size := s.size + size }
    (fun o d => memset (toInt s.size) size (realloc (s.size + size) (junk o) d))
    (fun o => s.data o ++ List.replicate size 0) hready h.objs hbody
  rw [State.createItem, htotal]
  dsimp only
  rw [hpass]
  refine ⟨_, rfl, ?_⟩
  have hoff : toInt s.size = s.size := toInt_of_lt hint
  constructor
  case fault => exact h.fault
  case skipped => exact h.skipped
  case laid => exact ⟨by simp [hoff], hoff ▸ h.laid⟩
  case small =>
    rintro it hit
    rcases List.mem_cons.mp hit with rfl | hit
    · dsimp only
      rw [hoff]
      exact_mod_cast hint
    · exact h.small it hit
  case size_lt => exact hsize
  case ids => exact List.nodup_cons.mpr ⟨hid, h.ids⟩
  case objs => exact h.objs
  case length =>
    rintro o (ho : o ∈ s.objs)
    simp [ho, h.length o ho]
  case held =>
    rintro o (ho : o ∈ s.objs) it hit
    have hlen := h.length o ho
    dsimp only
    rw [if_pos ho]
    rcases List.mem_cons.mp hit with rfl | hit
    · rw [if_pos rfl, Item.bytes]
      dsimp only
      rw [hoff, Int.toNat_natCast, ← hlen]
      have hslice := slice_append_right (d := s.data o) (e := List.replicate size 0) (o := 0)
        (n := size)
      rw [Nat.add_zero] at hslice
      rw [hslice, slice, List.drop_zero, List.take_of_length_le (by simp)]
    · have hne : it.id ≠ id := fun heq => hid (heq ▸ List.mem_map_of_mem hit)
      obtain ⟨hpos, hle⟩ := h.bounds hit
      rw [if_neg hne, ← h.held o ho it hit, Item.bytes, Item.bytes, slice_append_left]
      omega

/-! ### Destroying an item -/

/-- The block of an object after the item at `[p, p + k)` has been taken out. -/
theorem realloc_take_append_drop {d : Bytes} {p k : ℕ} (junk : ℕ → UInt8) (h : p + k ≤ d.length)
    (e : Bytes) (he : e.length = k) :
    realloc (d.length - k) junk (d.take p ++ (d.drop (p + k) ++ e)) =
      d.take p ++ d.drop (p + k) := by
  have hlen : (d.take p ++ d.drop (p + k)).length = d.length - k := by
    rw [List.length_append, List.length_take, List.length_drop]
    omega
  have hall : (d.take p ++ d.drop (p + k) ++ e).length = d.length := by
    rw [List.length_append, hlen, he]
    omega
  rw [← List.append_assoc, realloc, hall, Nat.sub_eq_zero_of_le (Nat.sub_le _ _)]
  rw [← hlen, List.take_left']
  · simp
  · rfl

/-- `memmove` puts what is behind the item where the item was. -/
theorem memmove_behind {d : Bytes} {p k : ℕ} (h : p + k ≤ d.length) :
    memmove p (p + k) (d.length - p - k) d =
      some (d.take p ++ (d.drop (p + k) ++ d.drop (d.length - k))) := by
  have hslice : slice (p + k) (d.length - p - k) d = d.drop (p + k) := by
    rw [slice, List.take_of_length_le]
    rw [List.length_drop]
    omega
  have hend : (p : ℤ).toNat + (d.length - p - k) = d.length - k := by omega
  rw [memmove, if_pos ⟨by omega, by omega, by omega⟩, hslice, hend, Int.toNat_natCast]

theorem toInt_toSize {z : ℤ} (h : 0 ≤ z) (hlt : z < 2 ^ 31) : toInt (toSize z) = z := by
  obtain ⟨n, rfl⟩ := Int.eq_ofNat_of_zero_le h
  have hn : n < 2 ^ 31 := by exact_mod_cast hlt
  rw [toSize_of_lt (by omega), toInt_of_lt hn]

/-- What becomes of the other items: those in front of the one that is destroyed stay, those behind
it move down by its size. -/
theorem Inv.moveDown (h : Inv s) {newer older : List Item} {mip : Item}
    (hitems : s.items = newer ++ mip :: older) :
    (∀ it ∈ older, it.offset + it.size ≤ mip.offset ∧ Mdext.moveDown mip it = it) ∧
    ∀ it ∈ newer, mip.offset + mip.size ≤ it.offset ∧
      Mdext.moveDown mip it = { it with offset := it.offset - mip.size } := by
  have hlaid := h.laid
  rw [hitems, laid_append] at hlaid
  obtain ⟨mid, hnewer, hmid, holder⟩ := hlaid
  constructor
  · rintro it hit
    have hle := (holder.bounds hit).2
    refine ⟨hle, if_neg ?_⟩
    omega
  · rintro it hit
    have hle := (hnewer.bounds hit).1
    have hpos := holder.le
    have hsmall := h.small it (by simp [hitems, hit])
    refine ⟨by omega, ?_⟩
    rw [Mdext.moveDown]
    split
    · rw [toInt_toSize (by omega) (by omega)]
    · -- they start at the same position, so the item is empty
      have hoff : it.offset - mip.size = it.offset := by omega
      rw [hoff]

theorem Inv.laid_destroy (h : Inv s) {newer older : List Item} {mip : Item}
    (hitems : s.items = newer ++ mip :: older) :
    Laid Item.offset Item.size 0 ((newer ++ older).map (Mdext.moveDown mip))
      (s.size - mip.size : ℤ) := by
  obtain ⟨hfront, hbehind⟩ := h.moveDown hitems
  have hlaid := h.laid
  rw [hitems, laid_append] at hlaid
  obtain ⟨mid, hnewer, hmid, holder⟩ := hlaid
  rw [List.map_append, laid_append]
  refine ⟨mid - mip.size, hnewer.shift ?_ ?_, ?_⟩
  · rintro it hit
    rw [(hbehind it hit).2]
  · rintro it hit
    rw [(hbehind it hit).2]
  · rw [List.map_congr_left fun it hit => (hfront it hit).2, List.map_id']
    rwa [show mid - (mip.size : ℤ) = mip.offset by omega]

/-- The items whose address is another one. -/
theorem filter_ne_of_nodup {newer older : List Item} {mip : Item}
    (hnd : ((newer ++ mip :: older).map (·.id)).Nodup) :
    (newer ++ mip :: older).filter (·.id ≠ mip.id) = newer ++ older := by
  rw [List.map_append, List.map_cons, List.nodup_append] at hnd
  obtain ⟨-, hcons, hdisj⟩ := hnd
  have hnewer : newer.filter (·.id ≠ mip.id) = newer := by
    refine List.filter_eq_self.mpr fun it hit => decide_eq_true fun heq => ?_
    exact hdisj _ (List.mem_map_of_mem hit) _ List.mem_cons_self heq
  have holder : older.filter (·.id ≠ mip.id) = older := by
    refine List.filter_eq_self.mpr fun it hit => decide_eq_true fun heq => ?_
    exact (List.nodup_cons.mp hcons).1 (heq ▸ List.mem_map_of_mem hit)
  rw [List.filter_append, List.filter_cons_of_neg (by simp), hnewer, holder]

/-- The blocks after the item at `[p, p + k)` has been taken out of all of them. -/
def cutOut (p k : ℕ) (s : State) (o : ℕ) : Bytes :=
  (s.data o).take p ++ (s.data o).drop (p + k)

/-- The two passes of `destroy_mdext_item` take the item out of every block. -/
theorem Inv.destroyItem_eq (h : Inv s) {mip : Item} {junk : ℕ → ℕ → UInt8} (hready : Ready s)
    (hfind : s.items.find? (·.id = mip.id) = some mip) :
    ∃ started, s.destroyItem mip.id junk = some { s with
      size := s.size - mip.size
      items := (s.items.filter (·.id ≠ mip.id)).map (Mdext.moveDown mip)
      data := fun o => if o ∈ s.objs then cutOut mip.offset.toNat mip.size s o else s.data o
      started := started } := by
  obtain ⟨hpos, hend⟩ := h.bounds (List.mem_of_find?_eq_some hfind)
  obtain ⟨p, hp⟩ := Int.eq_ofNat_of_zero_le hpos
  have hsize := h.size_lt
  have hle : p + mip.size ≤ s.size := by omega
  have hp64 : toSize mip.offset = p := by
    rw [hp]
    exact toSize_of_lt (by omega)
  have hstop : toSize (toSize mip.offset + mip.size) = p + mip.size := by
    rw [hp64]
    exact_mod_cast toSize_of_lt (by omega : p + mip.size < 2 ^ 64)
  have htotal : toSize (s.size - mip.size) = s.size - mip.size := by
    rw [← Nat.cast_sub (by omega)]
    exact toSize_of_lt (by omega)
  have hrest : toSize (s.size - toSize mip.offset - mip.size) = s.size - p - mip.size := by
    rw [hp64, ← Nat.cast_sub (by omega), ← Nat.cast_sub (by omega)]
    exact toSize_of_lt (by omega)
  have hcut : mip.offset.toNat = p := by rw [hp, Int.toNat_natCast]
  rw [State.destroyItem, hfind]
  dsimp only
  rw [hstop, htotal, hrest, hcut]
  by_cases hlast : p + mip.size = s.size
  · -- it is the last item: the blocks are cut
    have hbody : ∀ o ∈ s.objs, some (realloc (s.size - mip.size) (junk o) (s.data o)) =
        some (cutOut p mip.size s o) := by
      rintro o ho
      have hlen := h.length o ho
      have hnil : (s.data o).drop (p + mip.size) = [] :=
        List.drop_eq_nil_of_le (by omega)
      have hcutting := realloc_take_append_drop (d := s.data o) (p := p) (k := mip.size) (junk o)
        (by omega) ((s.data o).drop p) (by rw [List.length_drop]; omega)
      rw [hnil, List.nil_append, List.take_append_drop, hlen] at hcutting
      rw [hcutting, cutOut, hnil]
    obtain ⟨started, -, hpass⟩ := @Ready.pass { s with size := s.size - mip.size }
      (fun o d => some (realloc (s.size - mip.size) (junk o) d)) (cutOut p mip.size s) hready
      h.objs hbody
    rw [if_neg (not_not.mpr hlast), Option.bind_some, hpass]
    exact ⟨started, rfl⟩
  · have hmove : ∀ o ∈ s.objs,
        memmove mip.offset (p + mip.size) (s.size - p - mip.size) (s.data o) =
          some (cutOut p mip.size s o ++ (s.data o).drop (s.size - mip.size)) := by
      rintro o ho
      have hlen := h.length o ho
      rw [hp, ← hlen, memmove_behind (by omega), cutOut, List.append_assoc]
    obtain ⟨started₁, hready₁, hpass₁⟩ := @Ready.pass s
      (fun _ d => memmove mip.offset (p + mip.size) (s.size - p - mip.size) d)
      (fun o => cutOut p mip.size s o ++ (s.data o).drop (s.size - mip.size)) hready h.objs hmove
    rw [if_pos hlast, hpass₁, Option.bind_some]
    have hbody : ∀ o ∈ s.objs, some (realloc (s.size - mip.size) (junk o)
        (if o ∈ s.objs then cutOut p mip.size s o ++ (s.data o).drop (s.size - mip.size)
          else s.data o)) = some (cutOut p mip.size s o) := by
      rintro o ho
      have hlen := h.length o ho
      have hcutting := realloc_take_append_drop (d := s.data o) (p := p) (k := mip.size) (junk o)
        (by omega) ((s.data o).drop (s.size - mip.size)) (by rw [List.length_drop]; omega)
      rw [hlen] at hcutting
      rw [if_pos ho, cutOut, List.append_assoc, hcutting]
    obtain ⟨started, -, hpass⟩ := @Ready.pass { s with
        size := s.size - mip.size
        data := fun o => if o ∈ s.objs then
          cutOut p mip.size s o ++ (s.data o).drop (s.size - mip.size) else s.data o
        started := started₁ }
      (fun o d => some (realloc (s.size - mip.size) (junk o) d)) (cutOut p mip.size s) hready₁
      h.objs hbody
    rw [hpass]
    refine ⟨started, congrArg some ?_⟩
    dsimp only
    congr 1
    funext o
    by_cases ho : o ∈ s.objs <;> simp [ho]

/-- Every item that is left comes from one that was there, with the same bytes. -/
theorem Inv.moved (h : Inv s) {newer older : List Item} {mip : Item}
    (hitems : s.items = newer ++ mip :: older) :
    ∀ it' ∈ (newer ++ older).map (Mdext.moveDown mip), ∃ it ∈ s.items,
      it'.id = it.id ∧ it'.offset ≤ it.offset ∧ ∀ o ∈ s.objs,
        it'.bytes (cutOut mip.offset.toNat mip.size s o) = it.bytes (s.data o) := by
  obtain ⟨hfront, hbehind⟩ := h.moveDown hitems
  obtain ⟨hpos, hend⟩ := h.bounds (show mip ∈ s.items by simp [hitems])
  rintro it' hit'
  obtain ⟨it, hit, rfl⟩ := List.mem_map.mp hit'
  have hin : it ∈ s.items := by
    rw [hitems]
    rcases List.mem_append.mp hit with hit | hit
    · exact List.mem_append_left _ hit
    · exact List.mem_append_right _ (List.mem_cons_of_mem _ hit)
  have hbounds := h.bounds hin
  refine ⟨it, hin, ?_⟩
  rcases List.mem_append.mp hit with hit | hit
  · obtain ⟨hle, hmove⟩ := hbehind it hit
    rw [hmove]
    refine ⟨rfl, by dsimp only; omega, fun o ho => ?_⟩
    have hlen := h.length o ho
    have hnat : (it.offset - mip.size).toNat = it.offset.toNat - mip.size := by omega
    rw [Item.bytes, Item.bytes]
    dsimp only
    rw [hnat, cutOut, slice_take_append_drop (by omega) (by omega)]
  · obtain ⟨hle, hmove⟩ := hfront it hit
    rw [hmove]
    refine ⟨rfl, le_rfl, fun o ho => ?_⟩
    have hlen := h.length o ho
    rw [Item.bytes, Item.bytes, cutOut, slice_take_append (by omega) (by omega)]

theorem Inv.destroyItem (h : Inv s) (id : ℕ) (junk : ℕ → ℕ → UInt8)
    (hready : id ∈ s.items.map (·.id) → Ready s) :
    ∃ s', s.destroyItem id junk = some s' ∧ Inv s' := by
  rcases hfind : s.items.find? (·.id = id) with _ | mip
  · exact ⟨s, by rw [State.destroyItem, hfind], h⟩
  obtain rfl : mip.id = id := by simpa using List.find?_some hfind
  have hmem := List.mem_of_find?_eq_some hfind
  obtain ⟨started, heq⟩ := @Inv.destroyItem_eq s h mip junk (hready (List.mem_map_of_mem hmem))
    hfind
  refine ⟨_, heq, ?_⟩
  obtain ⟨newer, older, hitems⟩ := List.append_of_mem hmem
  obtain ⟨hfront, hbehind⟩ := h.moveDown hitems
  obtain ⟨hpos, hend⟩ := h.bounds hmem
  have hids := h.ids
  rw [hitems] at hids
  have hfilter : s.items.filter (·.id ≠ mip.id) = newer ++ older := by
    rw [hitems]
    exact filter_ne_of_nodup hids
  have hold := h.moved hitems
  constructor
  case fault => exact h.fault
  case skipped => exact h.skipped
  case laid =>
    rw [hfilter, Nat.cast_sub (by omega)]
    exact h.laid_destroy hitems
  case small =>
    rintro it' hit'
    dsimp only at hit'
    rw [hfilter] at hit'
    obtain ⟨it, hit, -, hle, -⟩ := hold it' hit'
    exact hle.trans_lt (h.small it hit)
  case size_lt => exact lt_of_le_of_lt (Nat.sub_le _ _) h.size_lt
  case ids =>
    have hmap : ((newer ++ older).map (Mdext.moveDown mip)).map (·.id) =
        (newer ++ older).map (·.id) := by
      rw [List.map_map]
      refine List.map_congr_left fun it hit => ?_
      rcases List.mem_append.mp hit with hit | hit
      · rw [Function.comp_apply, (hbehind it hit).2]
      · rw [Function.comp_apply, (hfront it hit).2]
    rw [hfilter, hmap]
    refine hids.sublist (List.Sublist.map _ ?_)
    exact (List.sublist_cons_self mip older).append_left newer
  case objs => exact h.objs
  case length =>
    rintro o (ho : o ∈ s.objs)
    have hlen := h.length o ho
    dsimp only
    rw [if_pos ho, cutOut, List.length_append, List.length_take, List.length_drop]
    omega
  case held =>
    rintro o (ho : o ∈ s.objs) it' hit'
    dsimp only at hit'
    rw [hfilter] at hit'
    obtain ⟨it, hit, hid, -, hbytes⟩ := hold it' hit'
    dsimp only
    rw [if_pos ho, hbytes o ho, hid]
    exact h.held o ho it hit

/-! ### Objects -/

theorem Inv.find_item (h : Inv s) {it : Item} (hit : it ∈ s.items) :
    s.items.find? (·.id = it.id) = some it := by
  rcases hfind : s.items.find? (·.id = it.id) with _ | b
  · simpa using List.find?_eq_none.mp hfind it hit
  · have hid : b.id = it.id := by simpa using List.find?_some hfind
    rw [hfind, List.inj_on_of_nodup_map h.ids (List.mem_of_find?_eq_some hfind) hit hid]

theorem Inv.alloc (h : Inv s) {o : ℕ} (ho : o ∉ s.objs) : Inv (s.alloc o) where
  fault := h.fault
  skipped := h.skipped
  laid := h.laid
  small := h.small
  size_lt := h.size_lt
  ids := h.ids
  objs := List.nodup_cons.mpr ⟨ho, h.objs⟩
  length := by
    rintro p hp
    rw [State.alloc]
    dsimp only
    rcases List.mem_cons.mp hp with rfl | hp
    · simp
    · have hne : p ≠ o := fun heq => ho (heq ▸ hp)
      rw [Function.update_of_ne hne]
      exact h.length p hp
  held := by
    rintro p hp it hit
    rw [State.alloc]
    dsimp only
    rcases List.mem_cons.mp hp with rfl | hp
    · have hbounds := h.bounds hit
      rw [Function.update_self, Function.update_self, h.find_item hit, Item.bytes,
        slice_replicate (by omega)]
    · have hne : p ≠ o := fun heq => ho (heq ▸ hp)
      rw [Function.update_of_ne hne, Function.update_of_ne hne]
      exact h.held p hp it hit

theorem Inv.free (h : Inv s) (o : ℕ) : Inv { s with objs := s.objs.filter (· ≠ o) } where
  fault := h.fault
  skipped := h.skipped
  laid := h.laid
  small := h.small
  size_lt := h.size_lt
  ids := h.ids
  objs := h.objs.filter _
  length := fun p hp => h.length p (List.mem_of_mem_filter hp)
  held := fun p hp => h.held p (List.mem_of_mem_filter hp)

/-- Two items lie one behind the other. -/
theorem Inv.apart (h : Inv s) {a b : Item} (ha : a ∈ s.items) (hb : b ∈ s.items) (hne : a ≠ b) :
    b.offset + b.size ≤ a.offset ∨ a.offset + a.size ≤ b.offset := by
  have hsymm : Std.Symm fun a b : Item =>
      b.offset + b.size ≤ a.offset ∨ a.offset + a.size ≤ b.offset := ⟨fun _ _ => Or.symm⟩
  have hpair : s.items.Pairwise fun a b : Item =>
      b.offset + b.size ≤ a.offset ∨ a.offset + a.size ≤ b.offset :=
    h.laid.pairwise.imp fun hle => Or.inl hle
  exact hpair.forall ha hb hne

theorem Inv.write (h : Inv s) {o k : ℕ} {mip : Item} {b : UInt8} (hmem : mip ∈ s.items)
    (ho : o ∈ s.objs) (hk : k < mip.size) : ∃ s', s.write o mip k b = some s' ∧ Inv s' := by
  obtain ⟨hpos, hend⟩ := h.bounds hmem
  have hlen := h.length o ho
  refine ⟨_, if_pos ⟨hpos, by omega⟩, ?_⟩
  constructor
  case fault => exact h.fault
  case skipped => exact h.skipped
  case laid => exact h.laid
  case small => exact h.small
  case size_lt => exact h.size_lt
  case ids => exact h.ids
  case objs => exact h.objs
  case length =>
    rintro p hp
    dsimp only
    by_cases hpo : p = o
    · subst hpo
      rw [Function.update_self, List.length_set, hlen]
    · rw [Function.update_of_ne hpo]
      exact h.length p hp
  case held =>
    rintro p hp it hit
    dsimp only
    by_cases hpo : p = o
    · subst hpo
      rw [Function.update_self, Function.update_self, Item.bytes]
      by_cases hsame : it = mip
      · subst hsame
        rw [slice_set_of_mem (Nat.le_add_right _ _), Nat.add_sub_cancel_left, Function.update_self,
          ← h.held p hp it hit, Item.bytes]
      · have hid : it.id ≠ mip.id := fun heq =>
          hsame (List.inj_on_of_nodup_map h.ids hit hmem heq)
        have hbounds := h.bounds hit
        have hapart := h.apart hit hmem hsame
        rw [slice_set_of_notMem (by omega), Function.update_of_ne hid]
        exact h.held p hp it hit
    · rw [Function.update_of_ne hpo, Function.update_of_ne hpo]
      exact h.held p hp it hit

/-! ### Runs -/

/-- The condition on a step: a pass that is to come to objects finds the flag clear, and the sizes
fit the types they are kept in. -/
def Meets (s : State) : Action → Prop
  | .create _ size _ => Ready s ∧ s.size < 2 ^ 31 ∧ s.size + size < 2 ^ 64
  | .destroy id _ => id ∈ s.items.map (·.id) → Ready s
  | _ => True

instance (s : State) : DecidablePred (Meets s)
  | .create _ size _ =>
    inferInstanceAs (Decidable (Ready s ∧ s.size < 2 ^ 31 ∧ s.size + size < 2 ^ 64))
  | .destroy id _ => inferInstanceAs (Decidable (id ∈ s.items.map (·.id) → Ready s))
  | .alloc _ | .free _ | .write .. => isTrue trivial

theorem Inv.step {a : Action} (h : Inv s) (hG : Meets s a) (hstep : Mdext.step s a = some s') :
    Inv s' := by
  unfold Mdext.step at hstep
  rw [if_neg (by simp [h.fault])] at hstep
  cases a with
  | create id size junk =>
    dsimp only at hstep
    split at hstep
    case isTrue => cases hstep
    case isFalse hid =>
    obtain rfl := Option.some.inj hstep
    obtain ⟨s', heq, hinv⟩ := @Inv.createItem s h id size junk hG.1 hid hG.2.1 hG.2.2
    rwa [heq]
  | destroy id junk =>
    obtain rfl := Option.some.inj hstep
    obtain ⟨s', heq, hinv⟩ := h.destroyItem id junk hG
    rwa [heq]
  | alloc o =>
    dsimp only at hstep
    split at hstep
    case isTrue => cases hstep
    case isFalse ho =>
    obtain rfl := Option.some.inj hstep
    exact h.alloc ho
  | free o =>
    obtain rfl := Option.some.inj hstep
    exact h.free o
  | write o id k b =>
    dsimp only at hstep
    split at hstep
    case h_1 => cases hstep
    case h_2 mip hfind =>
    split at hstep
    case isFalse => cases hstep
    case isTrue hok =>
    obtain rfl := Option.some.inj hstep
    obtain ⟨s', heq, hinv⟩ := @Inv.write s h o k mip b (List.mem_of_find?_eq_some hfind) hok.1 hok.2
    rwa [heq]

/-- In a run whose steps meet the condition the items tile the header's size, every object holds
what it should for each of them, and every pass comes to every object. -/
theorem tiled_of_run {as : List Action} {t : State} (hG : Run.Along step Meets start as)
    (hrun : Run.run step start as = some t) : Sound t :=
  (Run.run_invariant (fun _ _ _ hs hG h => Inv.step hs hG h) inv_start hG hrun).sound

/-- Bytes that `realloc` adds. -/
def anyBytes : ℕ → ℕ → UInt8 := fun _ _ => 255

/-- Two items before there is an object, then one more and the first one destroyed. -/
def evenPasses : List Action :=
  [.create 0 4 anyBytes, .create 1 2 anyBytes, .alloc 7, .write 7 1 0 9, .create 2 3 anyBytes,
    .destroy 0 anyBytes]

theorem tiled_of_run_even : ∃ t, Run.run step start evenPasses = some t ∧ Sound t :=
  ⟨_, rfl, @tiled_of_run evenPasses _ (by decide) rfl⟩

/-- An item is created while there is no object; the next one gets no room in the object made
since. -/
theorem tiled_fails : ¬ ∀ as t, Run.run step start as = some t → Sound t := by
  intro hall
  have hbad := hall [.create 0 4 anyBytes, .alloc 7, .create 1 4 anyBytes] _ rfl
  exact absurd (hbad.held 7 (by decide) { id := 1, offset := 4, size := 4 } (by decide)) (by decide)

end Mdext

end Ithildin
