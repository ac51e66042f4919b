import Ithildin.Lib.Buckets
import Ithildin.Lib.Run
import Ithildin.Table.HashTable
import Mathlib.Data.Multiset.AddSub

/-!
# A hash table holds a multiset

A table is `Filed` for a multiset of entries if each of them is in the bucket its key hashes to and
they are counted. Insertions and deletions keep that, and a resize files everything again, as long
as no table of 2^29 buckets or more is resized: from there on the arithmetic of the sizes wraps.

A search is right unless the comparison equates the key with stored entries none of which hashes as
the key does (`refines_of_run`).
-/

namespace Ithildin

namespace HashTable

variable {E : Type} {env : Env E} {t : HashTable E} {m : Multiset E} {e : E}

/-- Everything in the buckets of a table. -/
def ents (t : HashTable E) : List E :=
  (Buckets.entries t.size.toNat t.table).map (·.ent)

/-- The table's entries are those of a multiset, each in its bucket, and counted. -/
structure Filed (env : Env E) (t : HashTable E) (m : Multiset E) : Prop where
  size : ∃ k ≤ 31, t.size.toNat = 2 ^ k
  here : ∀ i, ∀ hep ∈ t.table i,
    hep.hv = env.bucket t.size (env.key hep.ent) ∧ hep.hv.toNat = i
  ents : (t.ents : Multiset E) = m
  count : t.entries.toNat = m.card

/-! ### Sizes -/

theorem Filed.size_pos (h : Filed env t m) : 0 < t.size.toNat := by
  obtain ⟨k, -, hk⟩ := h.size
  rw [hk]
  exact Nat.two_pow_pos k

/-- The bucket of a key is there. -/
theorem Filed.bucket_lt (h : Filed env t m) (key : Memory) : env.bucket t.size key < t.size := by
  have hpos := h.size_pos
  have hle : 1 ≤ t.size := UInt32.le_iff_toNat_le.mpr hpos
  rw [UInt32.lt_iff_toNat_lt, Env.bucket, UInt32.toNat_and, UInt32.toNat_sub_of_le _ _ hle]
  exact lt_of_le_of_lt Nat.and_le_right (Nat.sub_lt hpos Nat.one_pos)

/-- The threshold does not wrap below 2^30 buckets. -/
theorem crowded_iff (h : t.size.toNat ≤ 2 ^ 29) :
    t.crowded = true ↔ t.size.toNat * 6 / 5 ≤ t.entries.toNat := by
  have hmul : t.size.toNat * 6 < 2 ^ 32 := by omega
  rw [crowded, decide_eq_true_iff, UInt32.le_iff_toNat_le, UInt32.toNat_div, UInt32.toNat_mul]
  rw [show (6 : UInt32).toNat = 6 from rfl, show (5 : UInt32).toNat = 5 from rfl,
    Nat.mod_eq_of_lt hmul]

theorem not_crowded (h : t.size.toNat ≤ 2 ^ 29) (hlt : t.entries.toNat < t.size.toNat * 6 / 5) :
    t.crowded = false := by
  rw [← Bool.not_eq_true, crowded_iff h]
  omega

/-! ### Filing an entry -/

theorem mem_ents_iff : e ∈ t.ents ↔ ∃ i < t.size.toNat, ∃ hep ∈ t.table i, hep.ent = e := by
  simp only [HashTable.ents, List.mem_map, Buckets.mem_entries]
  constructor
  · rintro ⟨hep, ⟨i, hi, hmem⟩, rfl⟩
    exact ⟨i, hi, hep, hmem, rfl⟩
  · rintro ⟨i, hi, hep, hmem, rfl⟩
    exact ⟨hep, ⟨i, hi, hmem⟩, rfl⟩

/-- An entry is put into its bucket, whatever the table did before. -/
theorem Filed.place (h : Filed env t m) (e : E) (hm : m.card + 1 < 2 ^ 32) :
    ∃ t', t.place env e = some t' ∧ t'.size = t.size ∧ Filed env t' (e ::ₘ m) ∧
      t'.entries = t.entries + 1 := by
  have hlt := h.bucket_lt (env.key e)
  have hi : (env.bucket t.size (env.key e)).toNat < t.size.toNat := UInt32.lt_iff_toNat_lt.mp hlt
  let hep : Hashent E := { ent := e, hv := env.bucket t.size (env.key e) }
  let old := t.table (env.bucket t.size (env.key e)).toNat
  let new := if env.inserttail then old ++ [hep] else hep :: old
  have hnew : new.Perm (hep :: old) := by
    show (if env.inserttail then old ++ [hep] else hep :: old).Perm _
    split
    · exact List.perm_append_singleton hep old
    · exact List.Perm.refl _
  refine ⟨{ t with
    entries := t.entries + 1
    table := Function.update t.table (env.bucket t.size (env.key e)).toNat new },
    if_pos hlt, rfl, ⟨h.size, ?_, ?_, ?_⟩, rfl⟩
  · rintro i b (hb : b ∈ Function.update t.table _ new i)
    by_cases hieq : i = (env.bucket t.size (env.key e)).toNat
    · subst hieq
      rw [Function.update_self] at hb
      rcases List.mem_cons.mp (hnew.subset hb) with rfl | hb
      · exact ⟨rfl, rfl⟩
      · exact h.here _ b hb
    · rw [Function.update_of_ne hieq] at hb
      exact h.here i b hb
  · rw [← h.ents, Multiset.cons_coe, Multiset.coe_eq_coe]
    exact (Buckets.entries_update_cons hi hnew).map (·.ent)
  · show (t.entries + 1).toNat = (e ::ₘ m).card
    have hone : (1 : UInt32).toNat = 1 := rfl
    rw [Multiset.card_cons, ← h.count, UInt32.toNat_add, hone, Nat.mod_eq_of_lt]
    rwa [h.count]

/-! ### Inserting -/

/-- An insertion that leaves the table uncrowded is just the filing of the entry. -/
theorem Filed.insertFuel (h : Filed env t m) (fuel : ℕ) (e : E) (hsize : t.size.toNat ≤ 2 ^ 29)
    (hm : m.card + 1 < t.size.toNat * 6 / 5) :
    ∃ t', insertFuel env (fuel + 1) t e = some t' ∧ t'.size = t.size ∧ Filed env t' (e ::ₘ m) := by
  obtain ⟨t', hplace, hsize', hfiled, -⟩ := h.place e (by omega)
  have hcalm : t'.crowded = false := by
    refine not_crowded (by rwa [hsize']) ?_
    rwa [hfiled.count, Multiset.card_cons, hsize']
  exact ⟨t', by simp [HashTable.insertFuel, hplace, hcalm], hsize', hfiled⟩

/-- Several insertions that leave the table uncrowded. -/
theorem Filed.foldlM_insertFuel (fuel : ℕ) (l : List E) (h : Filed env t m)
    (hsize : t.size.toNat ≤ 2 ^ 29) (hm : m.card + l.length < t.size.toNat * 6 / 5) :
    ∃ t', l.foldlM (HashTable.insertFuel env (fuel + 1)) t = some t' ∧ t'.size = t.size ∧
      Filed env t' (l + m) := by
  induction l generalizing t m with
  | nil => exact ⟨t, rfl, rfl, by simpa using h⟩
  | cons e l ih =>
    rw [List.length_cons] at hm
    obtain ⟨t₁, hins, hsize₁, hfiled₁⟩ := h.insertFuel fuel e hsize (by omega)
    obtain ⟨t', hrest, hsize', hfiled'⟩ := ih hfiled₁ (by rwa [hsize₁])
      (by rw [Multiset.card_cons, hsize₁]; omega)
    refine ⟨t', ?_, hsize'.trans hsize₁, ?_⟩
    · rw [List.foldlM_cons, hins]
      exact hrest
    · rwa [Multiset.add_cons, ← Multiset.cons_add, Multiset.cons_coe] at hfiled'

theorem filed_empty {size : UInt32} (hsize : ∃ k ≤ 31, size.toNat = 2 ^ k) :
    Filed env { size := size, entries := 0, table := fun _ => [] } 0 where
  size := hsize
  here := by simp
  ents := by simp [HashTable.ents]
  count := rfl

/-- A resize to a table that takes everything without being crowded files everything again. -/
theorem Filed.resize (h : Filed env t m) (fuel : ℕ) (hsize : t.size.toNat < 2 ^ 29)
    (hm : m.card < t.size.toNat * 2 * 6 / 5) :
    ∃ t', HashTable.resize (HashTable.insertFuel env (fuel + 1)) t (t.size * 2) = some t' ∧
      Filed env t' m ∧ t'.crowded = false := by
  obtain ⟨k, -, hpow⟩ := h.size
  have hdouble : (t.size * 2).toNat = t.size.toNat * 2 := by
    have htwo : (2 : UInt32).toNat = 2 := rfl
    rw [UInt32.toNat_mul, htwo, Nat.mod_eq_of_lt (by omega)]
  -- a power of two below 2^29
  have hk : k + 1 ≤ 29 := (Nat.pow_lt_pow_iff_right Nat.one_lt_two).mp (hpow ▸ hsize)
  have hpow' : (t.size * 2).toNat = 2 ^ (k + 1) := by rw [hdouble, hpow, Nat.pow_succ]
  have hle : (t.size * 2).toNat ≤ 2 ^ 29 := by
    rw [hpow']
    exact Nat.pow_le_pow_right Nat.two_pos hk
  have hempty : Filed env { size := t.size * 2, entries := 0, table := fun _ => [] } 0 :=
    filed_empty ⟨k + 1, by omega, hpow'⟩
  have htaken : t.taken = t.ents := by
    rw [taken, if_pos (by omega)]
    rfl
  have hlength : t.taken.length = m.card := by
    rw [htaken, ← h.ents, Multiset.coe_card]
  have hroom : Multiset.card (0 : Multiset E) + t.taken.length < (t.size * 2).toNat * 6 / 5 := by
    rw [hlength, hdouble, Multiset.card_zero, Nat.zero_add]
    exact hm
  obtain ⟨t', hfold, hsize', hfiled⟩ := hempty.foldlM_insertFuel fuel t.taken hle hroom
  rw [Multiset.add_zero, htaken, h.ents] at hfiled
  have hsize'' : t'.size.toNat = t.size.toNat * 2 := by rw [hsize', ← hdouble]
  refine ⟨t', hfold, hfiled, not_crowded (by rw [hsize']; exact hle) ?_⟩
  rwa [hfiled.count, hsize'']

/-- A table that is filed and, unless it has 2^31 buckets, not crowded. -/
structure Calm (env : Env E) (t : HashTable E) (m : Multiset E) : Prop extends Filed env t m where
  calm : t.size.toNat < 2 ^ 31 → t.crowded = false

/-- The insertion does not resize a table of 2^29 buckets or more. -/
def Fits (t : HashTable E) : Prop :=
  t.size.toNat < 2 ^ 29 ∨ t.entries + 1 < t.size * 6 / 5

/-- Less than the threshold is far less than 2^32. -/
theorem Calm.card_lt (h : Calm env t m) (hlt : t.size.toNat < 2 ^ 31) : m.card + 1 < 2 ^ 32 := by
  have hcalm := h.calm hlt
  have hdiv : t.entries.toNat < (t.size * 6).toNat / 5 := by
    rw [← Bool.not_eq_true, crowded, decide_eq_true_iff, UInt32.not_le, UInt32.lt_iff_toNat_lt,
      UInt32.toNat_div] at hcalm
    exact hcalm
  have hbound := (t.size * 6).toNat_lt
  rw [h.count] at hdiv
  omega

theorem Fits.size_lt (h : Calm env t m) (hfits : t.Fits) : t.size.toNat < 2 ^ 31 := by
  obtain ⟨k, hk, hpow⟩ := h.size
  rcases hfits with hlt | hlt
  · omega
  · by_contra hge
    -- with 2^31 buckets the threshold is 0
    have hk31 : k = 31 := by
      refine le_antisymm hk (Nat.le_of_not_lt fun hk' => hge ?_)
      rw [hpow]
      exact Nat.pow_lt_pow_right Nat.one_lt_two hk'
    have hsize : t.size = 2 ^ 31 := by
      refine UInt32.toNat.inj ?_
      rw [hpow, hk31]
      rfl
    have hzero : ((2 : UInt32) ^ 31 * 6 / 5).toNat = 0 := by decide
    rw [hsize, UInt32.lt_iff_toNat_lt, hzero] at hlt
    exact absurd hlt (Nat.not_lt_zero _)

theorem Calm.insert (h : Calm env t m) (e : E) (hfits : t.Fits) :
    ∃ t', t.insert env e = some t' ∧ Calm env t' (e ::ₘ m) := by
  have hlt := hfits.size_lt h
  have hm := h.card_lt hlt
  obtain ⟨t', hplace, hsize', hfiled, hentries⟩ := h.toFiled.place e hm
  rcases hcrowd : t'.crowded with _ | _
  · refine ⟨t', ?_, hfiled, fun _ => hcrowd⟩
    simp [HashTable.insert, HashTable.insertFuel, hplace, hcrowd]
  · have hsmall : t.size.toNat < 2 ^ 29 := by
      refine hfits.resolve_right fun hlt' => ?_
      rw [crowded, decide_eq_true_iff, hsize', hentries] at hcrowd
      exact UInt32.not_le.mpr hlt' hcrowd
    -- one entry fewer was not too many
    have hcard : m.card < t.size.toNat * 6 / 5 := by
      have hcalm := h.calm hlt
      rw [← Bool.not_eq_true, crowded_iff hsmall.le, not_le, h.count] at hcalm
      exact hcalm
    have hpos := h.size_pos
    obtain ⟨t'', hres, hfiled'', hcalm''⟩ := hfiled.resize 31 (by rwa [hsize'])
      (by rw [Multiset.card_cons, hsize']; omega)
    refine ⟨t'', ?_, hfiled'', fun _ => hcalm''⟩
    rw [HashTable.insert, HashTable.insertFuel, hplace, Option.bind_some, if_pos hcrowd]
    exact hres

/-! ### Deleting and finding -/

/-- A stored entry is in the bucket its key hashes to. -/
theorem Filed.exists_mem_bucket (h : Filed env t m) (he : e ∈ m) :
    ∃ hep ∈ t.table (env.bucket t.size (env.key e)).toNat,
      hep.ent = e ∧ hep.hv = env.bucket t.size (env.key e) := by
  rw [← h.ents, Multiset.mem_coe] at he
  obtain ⟨i, -, hep, hmem, rfl⟩ := mem_ents_iff.mp he
  obtain ⟨hhv, hi⟩ := h.here i hep hmem
  rw [hhv] at hi
  exact ⟨hep, hi ▸ hmem, rfl, hhv⟩

theorem Filed.mem_of_mem_bucket (h : Filed env t m) {i : ℕ} (hi : i < t.size.toNat)
    {hep : Hashent E} (hmem : hep ∈ t.table i) : hep.ent ∈ m := by
  rw [← h.ents, Multiset.mem_coe]
  exact mem_ents_iff.mpr ⟨i, hi, hep, hmem, rfl⟩

theorem Calm.delete [DecidableEq E] (h : Calm env t m) (e : E) :
    ∃ t', t.delete env e = some t' ∧ Calm env t' (m.erase e) := by
  have hlt := h.bucket_lt (env.key e)
  have hi : (env.bucket t.size (env.key e)).toNat < t.size.toNat := UInt32.lt_iff_toNat_lt.mp hlt
  rw [HashTable.delete]
  dsimp only
  rw [if_pos hlt]
  split
  case isFalse hany =>
    have hnot : e ∉ m := by
      intro he
      obtain ⟨hep, hmem, heq, -⟩ := h.exists_mem_bucket he
      exact hany (List.any_eq_true.mpr ⟨hep, hmem, decide_eq_true heq⟩)
    exact ⟨t, rfl, by rwa [Multiset.erase_of_notMem hnot]⟩
  case isTrue hany =>
    obtain ⟨b, hb, hbe⟩ := List.any_eq_true.mp hany
    obtain ⟨hep, l₁, l₂, -, hent, hold, herase⟩ :=
      List.exists_of_eraseP (p := fun hep : Hashent E => decide (hep.ent = e)) hb hbe
    have hbucket : (t.table (env.bucket t.size (env.key e)).toNat).Perm (hep :: (l₁ ++ l₂)) := by
      rw [hold]
      exact List.perm_middle
    have hperm := (Buckets.entries_update_erase hi hbucket).map (·.ent)
    rw [List.map_cons, of_decide_eq_true hent] at hperm
    have hents : m = e ::ₘ ((Buckets.entries t.size.toNat (Function.update t.table
        (env.bucket t.size (env.key e)).toNat (l₁ ++ l₂))).map (·.ent) : List E) := by
      rw [← h.ents, Multiset.cons_coe, Multiset.coe_eq_coe]
      exact hperm
    have hcard : 0 < m.card := by
      rw [hents, Multiset.card_cons]
      exact Nat.succ_pos _
    have hone : 1 ≤ t.entries := by
      rw [UInt32.le_iff_toNat_le, h.count]
      exact hcard
    have hsub : (t.entries - 1).toNat = m.card - 1 := by
      rw [UInt32.toNat_sub_of_le _ _ hone, h.count]
      rfl
    rw [herase]
    refine ⟨_, rfl, ⟨h.size, ?_, ?_, ?_⟩, fun hsize => ?_⟩
    · rintro i c (hc : c ∈ Function.update t.table _ (l₁ ++ l₂) i)
      by_cases hieq : i = (env.bucket t.size (env.key e)).toNat
      · subst hieq
        rw [Function.update_self] at hc
        refine h.here _ c ?_
        rw [hold]
        rcases List.mem_append.mp hc with hc | hc
        · exact List.mem_append_left _ hc
        · exact List.mem_append_right _ (List.mem_cons_of_mem _ hc)
      · rw [Function.update_of_ne hieq] at hc
        exact h.here i c hc
    · rw [hents, Multiset.erase_cons_head]
      rfl
    · show (t.entries - 1).toNat = _
      rw [hsub, hents, Multiset.erase_cons_head, Multiset.card_cons, Nat.add_sub_cancel]
    · have hcalm := h.calm hsize
      rw [← Bool.not_eq_true, crowded, decide_eq_true_iff, UInt32.not_le,
        UInt32.lt_iff_toNat_lt] at hcalm ⊢
      show (t.entries - 1).toNat < (t.size * 6 / 5).toNat
      rw [hsub, ← h.count]
      omega

theorem size_delete [DecidableEq E] {t' : HashTable E} (h : t.delete env e = some t') :
    t'.size = t.size := by
  rw [HashTable.delete] at h
  dsimp only at h
  split at h
  case isFalse => cases h
  case isTrue =>
    split at h
    case isTrue =>
      obtain rfl := Option.some.inj h
      rfl
    case isFalse =>
      obtain rfl := Option.some.inj h
      rfl

/-- There is no less room after a deletion. -/
theorem Fits.of_le {env' : Env E} {t' : HashTable E} {m' : Multiset E} (hfits : t.Fits)
    (h : Calm env t m) (h' : Calm env' t' m') (hsize : t'.size = t.size)
    (hcard : m'.card ≤ m.card) : t'.Fits := by
  have hm := h.card_lt (hfits.size_lt h)
  rcases hfits with hlt | hlt
  · exact .inl (hsize ▸ hlt)
  · refine .inr ?_
    have hle : t'.entries.toNat ≤ t.entries.toNat := by
      rw [h.count, h'.count]
      exact hcard
    rw [hsize]
    have hone : (1 : UInt32).toNat = 1 := rfl
    have hroom : t.entries.toNat + 1 < 2 ^ 32 := by
      rw [h.count]
      exact hm
    rw [UInt32.lt_iff_toNat_lt, UInt32.toNat_add, hone, Nat.mod_eq_of_lt (by omega)] at hlt ⊢
    omega

/-- Only where the keys of the entries hash to counts. -/
theorem Calm.congr_env {env' : Env E} (h : Calm env t m)
    (hkey : ∀ e ∈ m, env'.bucket t.size (env'.key e) = env.bucket t.size (env.key e)) :
    Calm env' t m where
  size := h.size
  ents := h.ents
  count := h.count
  calm := h.calm
  here i hep hmem := by
    obtain ⟨hhv, hi⟩ := h.here i hep hmem
    have hlt : i < t.size.toNat := by
      rw [← hi, hhv]
      exact UInt32.lt_iff_toNat_lt.mp (h.bucket_lt _)
    rw [hkey hep.ent (h.mem_of_mem_bucket hlt hmem)]
    exact ⟨hhv, hi⟩

/-- What a search for a key should give, with the entries `m` stored. -/
def Right (env : Env E) (m : Multiset E) (key : Memory) : Option E → Prop
  | some e => e ∈ m ∧ equates env e key = true
  | none => ∀ e ∈ m, equates env e key = false

/-- If the comparison equates stored entries with the key, one of them hashes as it does. -/
def HashesAlike (env : Env E) (t : HashTable E) (m : Multiset E) (key : Memory) : Prop :=
  (∃ e ∈ m, equates env e key = true) →
    ∃ e ∈ m, equates env e key = true ∧ env.bucket t.size (env.key e) = env.bucket t.size key

/-- A search is right exactly when the key hashes as an entry it equals does. -/
theorem Filed.find (h : Filed env t m) (key : Memory) :
    ∃ o, t.find env key = some o ∧ (Right env m key o ↔ HashesAlike env t m key) := by
  have hlt := h.bucket_lt key
  have hi : (env.bucket t.size key).toNat < t.size.toNat := UInt32.lt_iff_toNat_lt.mp hlt
  refine ⟨_, if_pos hlt, ?_⟩
  rcases hfind : (t.table (env.bucket t.size key).toNat).find?
      fun hep => hep.hv = env.bucket t.size key && equates env hep.ent key with _ | hep
  · rw [hfind, Option.map_none]
    have hnone := List.find?_eq_none.mp hfind
    -- so no stored entry of this bucket is equated with the key
    have hbucket : ∀ e ∈ m, equates env e key = true →
        env.bucket t.size (env.key e) ≠ env.bucket t.size key := by
      rintro e he heq hsame
      obtain ⟨hep, hmem, rfl, hhv⟩ := h.exists_mem_bucket he
      rw [hsame] at hmem hhv
      exact hnone hep hmem (by simp [hhv, heq])
    constructor
    · rintro hright ⟨e, he, heq⟩
      simp [hright e he] at heq
    · rintro halike e he
      by_contra heq
      obtain ⟨b, hb, hbeq, hsame⟩ := halike ⟨e, he, by simpa using heq⟩
      exact hbucket b hb hbeq hsame
  · rw [hfind, Option.map_some]
    have hmem := List.mem_of_find?_eq_some hfind
    have hhep := List.find?_some hfind
    obtain ⟨hhv, heq⟩ : hep.hv = env.bucket t.size key ∧ equates env hep.ent key = true := by
      simpa using hhep
    have hin := h.mem_of_mem_bucket hi hmem
    refine iff_of_true ⟨hin, heq⟩ fun _ => ⟨hep.ent, hin, heq, ?_⟩
    rw [← (h.here _ hep hmem).1, hhv]

/-- A search finds nothing that is not stored. -/
theorem Filed.find_mem (h : Filed env t m) (key : Memory) :
    ∃ o, t.find env key = some o ∧ ∀ e ∈ o, e ∈ m := by
  have hlt := h.bucket_lt key
  have hi : (env.bucket t.size key).toNat < t.size.toNat := UInt32.lt_iff_toNat_lt.mp hlt
  refine ⟨_, if_pos hlt, fun e he => ?_⟩
  obtain ⟨hep, hfind, rfl⟩ := Option.map_eq_some_iff.mp he
  exact h.mem_of_mem_bucket hi (List.mem_of_find?_eq_some hfind)

/-! ### Runs -/

/-- A search and what it gave, with what was stored at the time. -/
structure Answer (E : Type) where
  stored : Multiset E
  key : Memory
  found : Option E

/-- A table, nothing once it has been accessed outside its buckets; the entries inserted and not
deleted; and the searches so far. -/
structure State (E : Type) where
  table : Option (HashTable E)
  stored : Multiset E
  answers : List (Answer E)

inductive Op (E : Type)
  | insert (e : E)
  | delete (e : E)
  | find (key : Memory)

/-- A table that has just been created. -/
def start (t : HashTable E) : State E where
  table := some t
  stored := 0
  answers := []

/-- A call of one of the functions. -/
def step [DecidableEq E] (env : Env E) (s : State E) (op : Op E) : Option (State E) :=
  s.table.map fun t =>
    match op with
    | .insert e => { s with table := t.insert env e, stored := e ::ₘ s.stored }
    | .delete e => { s with table := t.delete env e, stored := s.stored.erase e }
    | .find key =>
      match t.find env key with
      | none => { s with table := none }
      | some o => { s with answers := ⟨s.stored, key, o⟩ :: s.answers }

/-- The condition on a call: an insertion resizes no table of 2^29 buckets or more, and a search is
for a key that hashes as a stored entry does that it equals, if there is one. -/
def Meets (env : Env E) (s : State E) : Op E → Prop
  | .insert _ => ∀ t ∈ s.table, t.Fits
  | .delete _ => True
  | .find key => ∀ t ∈ s.table, HashesAlike env t s.stored key

/-- The table holds the entries inserted and not deleted, counts them, and every search so far gave
what it should. -/
structure Refines (env : Env E) (s : State E) : Prop where
  table : ∃ t, s.table = some t ∧ (t.ents : Multiset E) = s.stored ∧
    t.entries.toNat = s.stored.card
  answers : ∀ a ∈ s.answers, Right env a.stored a.key a.found

theorem shiftUp_spec {elems : ℕ} (helems : elems ≤ 2 ^ 31) (n k : ℕ) (hn : n + k = 32) :
    ∃ j, k ≤ j ∧ j ≤ max k 31 ∧ shiftUp elems n (2 ^ k) = 2 ^ j := by
  induction n generalizing k with
  | zero => exact ⟨k, le_rfl, le_max_left _ _, rfl⟩
  | succ n ih =>
    rw [shiftUp]
    split
    case isTrue hlt =>
      have hk : k < 31 := (Nat.pow_lt_pow_iff_right Nat.one_lt_two).mp (hlt.trans_le helems)
      obtain ⟨j, hkj, hj, hshift⟩ := ih (k + 1) (by omega)
      rw [Nat.pow_succ] at hshift
      exact ⟨j, by omega, by omega, hshift⟩
    case isFalse => exact ⟨k, le_rfl, le_max_left _ _, rfl⟩

/-- A table is created with a power of two for its size. -/
theorem calm_create {elems : UInt32} (hc : create elems = some t) : Calm env t 0 := by
  rw [create] at hc
  split at hc
  case isTrue => cases hc
  case isFalse helems =>
  obtain rfl := Option.some.inj hc
  obtain ⟨j, hj7, hj, hshift⟩ := shiftUp_spec (not_lt.mp helems) 25 7 rfl
  have hreal : ∃ k, 6 ≤ k ∧ k ≤ 31 ∧ realElems elems = 2 ^ k := by
    rw [realElems, show (0x80 : ℕ) = 2 ^ 7 from rfl, hshift]
    split
    · refine ⟨j - 1, by omega, by omega, ?_⟩
      rw [show j = j - 1 + 1 by omega, Nat.pow_succ, Nat.mul_div_cancel _ Nat.two_pos,
        Nat.add_sub_cancel]
    · exact ⟨j, by omega, by omega, rfl⟩
  obtain ⟨k, hk6, hk31, hk⟩ := hreal
  have hsize : (UInt32.ofNat (realElems elems)).toNat = 2 ^ k := by
    have hlt : 2 ^ k < 2 ^ 32 := Nat.pow_lt_pow_right Nat.one_lt_two (by omega)
    rw [hk, UInt32.toNat_ofNat_of_lt' hlt]
  refine ⟨filed_empty ⟨k, hk31, hsize⟩, fun hlt => ?_⟩
  have hlt' : k < 31 := (Nat.pow_lt_pow_iff_right Nat.one_lt_two).mp (hsize ▸ hlt)
  have hcalm : ∀ k < 31, 6 ≤ k → decide (UInt32.ofNat (2 ^ k) * 6 / 5 ≤ 0) = false := by decide
  rw [crowded]
  dsimp only
  rw [hk]
  exact hcalm k hlt' hk6

/-- After every run whose calls meet the condition the table is the multiset of the entries inserted
and not deleted, and every search has given what it should. -/
theorem refines_of_run [DecidableEq E] (env : Env E) {elems : UInt32} {ops : List (Op E)}
    {s : State E} (hc : create elems = some t)
    (hG : Run.Along (step env) (Meets env) (start t) ops)
    (hrun : Run.run (step env) (start t) ops = some s) : Refines env s := by
  have hinv : (∃ t, s.table = some t ∧ Calm env t s.stored) ∧
      ∀ a ∈ s.answers, Right env a.stored a.key a.found := by
    refine Run.run_invariant (I := fun s => (∃ t, s.table = some t ∧ Calm env t s.stored) ∧
      ∀ a ∈ s.answers, Right env a.stored a.key a.found) ?_
      ⟨⟨t, rfl, calm_create hc⟩, by simp [start]⟩ hG hrun
    rintro s op s' ⟨⟨t, ht, hcalm⟩, hans⟩ hG hstep
    obtain rfl : _ = s' := by simpa [step, ht] using hstep
    cases op with
    | insert e =>
      obtain ⟨t', hins, hcalm'⟩ := hcalm.insert e (hG t ht)
      exact ⟨⟨t', hins, hcalm'⟩, hans⟩
    | delete e =>
      obtain ⟨t', hdel, hcalm'⟩ := hcalm.delete e
      exact ⟨⟨t', hdel, hcalm'⟩, hans⟩
    | find key =>
      obtain ⟨o, hfind, hright⟩ := hcalm.find key
      simp only [hfind]
      refine ⟨⟨t, rfl, hcalm⟩, fun a ha => ?_⟩
      rcases List.mem_cons.mp ha with rfl | ha
      · exact hright.mpr (hG t ht)
      · exact hans a ha
  obtain ⟨⟨t, ht, hcalm⟩, hans⟩ := hinv
  exact ⟨⟨t, ht, hcalm.ents, hcalm.count⟩, hans⟩

/-- A string in memory. -/
def text (s : Bytes) : Memory := fun i => s.getD i 0

/-- A comparison of up to `n` bytes that ignores case. -/
def caseCmp (a b : Memory) (n : ℕ) : ℤ :=
  if (List.range n).all fun i => toLower (a i) = toLower (b i) then 0 else 1

/-- A table of strings that are compared without regard to case and hashed with regard to it, and
one entry for it. -/
def caseEnv : Env Unit where
  nocase := false
  string := true
  inserttail := false
  keyoffset := 0
  keylen := 4
  cmp := caseCmp
  mem := fun _ => text (bytes "FE")

/-- A table of 128 buckets. -/
def smallTable : HashTable Unit where
  size := 128
  entries := 0
  table := fun _ => []

/-- The entry is inserted, found by its own key and deleted. -/
def ownKey : List (Op Unit) :=
  [.insert (), .find (text (bytes "FE")), .delete ()]

theorem refines_of_run_ownKey : create 128 = some smallTable ∧
    ∃ s, Run.run (step caseEnv) (start smallTable) ownKey = some s ∧ Refines caseEnv s := by
  have hrun : (Run.run (step caseEnv) (start smallTable) ownKey).isSome = true := by
    decide +kernel
  obtain ⟨s, hs⟩ := Option.isSome_iff_exists.mp hrun
  have hkey : caseEnv.key () = text (bytes "FE") := by
    funext i
    rw [Env.key, show caseEnv.keyoffset + i = i from Nat.zero_add i]
    rfl
  have hc : create 128 = some smallTable := rfl
  have hG : Run.Along (step caseEnv) (Meets caseEnv) (start smallTable) ownKey := by
    refine ⟨fun t ht => ?_, fun s₁ hs₁ => ⟨?_, fun _ _ => ⟨trivial, fun _ _ => trivial⟩⟩⟩
    · obtain rfl : smallTable = t := Option.some.inj ht
      exact .inl (by decide)
    · obtain rfl := Option.some.inj hs₁
      rintro t - ⟨e, -, heq⟩
      exact ⟨(), by simp [start], heq, by rw [hkey]⟩
  exact ⟨hc, s, hs, refines_of_run caseEnv hc hG hs⟩

/-- A key that differs from the entry's in case only is not found. -/
theorem refines_fails : ¬ ∀ (env : Env Unit) (elems : UInt32) (t : HashTable Unit)
    (ops : List (Op Unit)) (s : State Unit), create elems = some t →
    Run.run (step env) (start t) ops = some s → Refines env s := by
  intro hall
  have hrun : (Run.run (step caseEnv) (start smallTable)
      [.insert (), .find (text (bytes "fe"))]).map
        (fun s => s.answers.map fun a =>
          (a.found, decide (() ∈ a.stored), equates caseEnv () a.key)) =
      some [(none, true, true)] := by
    decide +kernel
  obtain ⟨s, hs, hans⟩ := Option.map_eq_some_iff.mp hrun
  have hbad := hall caseEnv 128 smallTable _ s rfl hs
  obtain ⟨a, ha, hval⟩ := List.mem_map.mp (hans ▸ List.mem_singleton_self _ :
    (none, true, true) ∈ s.answers.map fun a =>
      (a.found, decide (() ∈ a.stored), equates caseEnv () a.key))
  obtain ⟨hfound, hstored, heq⟩ : a.found = none ∧ () ∈ a.stored ∧
      equates caseEnv () a.key = true := by simpa using hval
  have hright := hbad.answers a ha
  rw [hfound] at hright
  simp [hright () hstored] at heq

end HashTable

end Ithildin
