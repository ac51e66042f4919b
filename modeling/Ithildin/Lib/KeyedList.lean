import Mathlib.Data.Finset.Card
import Mathlib.Data.List.Dedup

/-!
# Lists with a key for each item

A list that holds no two items with one key, new items in front, and as many items as it may.

* `KeyedList`: such a list;
* `KeyedList.add`, `KeyedList.remove`: an item more, if there is room and its key is not there, and
  the item with a key less;
* `KeyedList.keys`: the set of the keys; `keys_add`, `keys_remove`: what it is then.
-/

/-- A list without two items with one key. -/
structure KeyedList {α κ : Type*} (key : α → κ) where
  items : List α
  nodup : (items.map key).Nodup

namespace KeyedList

section

variable {α κ : Type*} {key : α → κ}

/-- No items. -/
def empty : KeyedList key := ⟨[], List.nodup_nil⟩

theorem nodup_cons {K : KeyedList key} {x : α} (h : ∀ y ∈ K.items, key y ≠ key x) :
    ((x :: K.items).map key).Nodup := by
  rw [List.map_cons, List.nodup_cons]
  refine ⟨fun hx => ?_, K.nodup⟩
  obtain ⟨y, hy, heq⟩ := List.mem_map.1 hx
  exact h y hy heq

end

variable {α κ : Type*} [DecidableEq κ] {key : α → κ}

/-- The keys of the items. -/
def keys (K : KeyedList key) : Finset κ := (K.items.map key).toFinset

theorem mem_keys {K : KeyedList key} {k : κ} : k ∈ K.keys ↔ ∃ x ∈ K.items, key x = k := by
  rw [keys, List.mem_toFinset, List.mem_map]

theorem card_keys (K : KeyedList key) : K.keys.card = K.items.length := by
  rw [keys, List.toFinset_card_of_nodup K.nodup, List.length_map]

/-- An item more, if there are fewer than `cap` and none has its key. -/
def add (K : KeyedList key) (cap : ℤ) (x : α) : KeyedList key :=
  if h : cap ≤ K.items.length ∨ ∃ y ∈ K.items, key y = key x then K
  else ⟨x :: K.items, nodup_cons fun y hy heq => h (.inr ⟨y, hy, heq⟩)⟩

/-- The item with a key less. -/
def remove (K : KeyedList key) (k : κ) : KeyedList key :=
  ⟨K.items.eraseP fun x => decide (key x = k), K.nodup.sublist (List.eraseP_sublist.map key)⟩

@[simp]
theorem items_remove (K : KeyedList key) (k : κ) :
    (K.remove k).items = K.items.eraseP fun x => decide (key x = k) := rfl

theorem keys_add (K : KeyedList key) (cap : ℤ) (x : α) : (K.add cap x).keys =
    if cap ≤ K.keys.card then K.keys else insert (key x) K.keys := by
  rw [card_keys, add]
  by_cases hfull : cap ≤ K.items.length
  · rw [dif_pos (.inl hfull), if_pos hfull]
  rw [if_neg hfull]
  by_cases hold : ∃ y ∈ K.items, key y = key x
  · rw [dif_pos (.inr hold), Finset.insert_eq_of_mem (mem_keys.2 hold)]
  · rw [dif_neg (not_or.2 ⟨hfull, hold⟩), keys, List.map_cons, List.toFinset_cons]
    rfl

theorem keys_remove (K : KeyedList key) (k : κ) : (K.remove k).keys = K.keys.erase k := by
  ext j
  rw [Finset.mem_erase, mem_keys, mem_keys, remove]
  constructor
  · rintro ⟨x, hx, rfl⟩
    refine ⟨fun heq => ?_, x, List.mem_of_mem_eraseP hx, rfl⟩
    -- the item with the key is the one that is gone
    have hkey : decide (key x = k) = true := decide_eq_true heq
    obtain ⟨y, front, back, -, hy, hsplit, herase⟩ :=
      List.exists_of_eraseP (p := fun x => decide (key x = k)) (List.mem_of_mem_eraseP hx) hkey
    have hnodup := K.nodup
    rw [hsplit, List.map_append, List.map_cons] at hnodup
    have hfresh := (List.nodup_cons.1 (List.nodup_middle.1 hnodup)).1
    have hx' : x ∈ K.items.eraseP fun x => decide (key x = k) := hx
    rw [herase] at hx'
    refine hfresh ?_
    rw [← List.map_append, of_decide_eq_true hy, ← heq]
    exact List.mem_map_of_mem hx'
  · rintro ⟨hne, x, hx, rfl⟩
    exact ⟨x, (List.mem_eraseP_of_neg (by simpa using hne)).2 hx, rfl⟩

end KeyedList
