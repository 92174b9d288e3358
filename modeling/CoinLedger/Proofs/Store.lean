import Mathlib
import CoinLedger.Store

/-!
# Buckets of a store as tables

`encard_keys`: the size of a bucket is the number of keys under which there is a value.

A bucket is a `Table` of a lookup function when it has, under the key of each `k`, a record of what the
function has for `k`, and no other keys.  Writing and erasing update the function at one place
(`Table.insert`, `Table.erase`) and leave the tables of other buckets as they are
(`Table.insert_of_ne`, `Table.erase_of_ne`).

`Table.size_eq`: the number of values in a bucket is the number of places at which its function has
something.  `Table.find?_eq`: two stores whose buckets are tables of one function have the same bytes
there, if a record is determined by what it stands for.
-/

namespace CoinLedger.Store

/-! ## Reading a slot -/

lemma get_eq_ok_iff {s : Store} {slot : Slot} {value : Bytes} :
    s.get slot = .ok value ↔ s.find? slot = some value := by
  unfold get
  split
  next data hfind => rw [hfind, Except.ok.injEq, Option.some.injEq]
  next hfind => simp [hfind]

lemma exists_get_eq_ok_iff {s : Store} {slot : Slot} :
    (∃ value, s.get slot = .ok value) ↔ (s.find? slot).isSome := by
  simp only [get_eq_ok_iff, Option.isSome_iff_exists]

/-- Stores with the same value in a slot give the same answer to reading it. -/
lemma get_congr {s t : Store} {slot : Slot} (h : s.find? slot = t.find? slot) :
    s.get slot = t.get slot := by
  rw [get, get, h]

/-! ## Values in a bucket -/

/-- A slot is in use when it has a value. -/
lemma mem_slots_iff (s : Store) (slot : Slot) :
    slot ∈ s.entries.map Prod.fst ↔ (s.find? slot).isSome := by
  rw [find?, List.lookup_isSome_iff, List.mem_map]
  constructor
  · rintro ⟨entry, hentry, rfl⟩
    exact ⟨entry, hentry, beq_self_eq_true entry.1⟩
  · rintro ⟨entry, hentry, heq⟩
    exact ⟨entry, hentry, (eq_of_beq heq).symm⟩

/-- A slot contains a value when one is found there. -/
lemma contains_eq_isSome (s : Store) (slot : Slot) : s.contains slot = (s.find? slot).isSome := by
  rw [Bool.eq_iff_iff, ← mem_slots_iff, contains, List.any_eq_true, List.mem_map]
  simp only [beq_iff_eq]

/-- The slots of a bucket that are in use. -/
def usedSlots (s : Store) (bucket : Text) : Finset Slot :=
  ((s.entries.map Prod.fst).filter (fun slot => slot.bucket == bucket)).toFinset

lemma mem_usedSlots {s : Store} {bucket : Text} {slot : Slot} :
    slot ∈ s.usedSlots bucket ↔ slot.bucket = bucket ∧ (s.find? slot).isSome := by
  rw [usedSlots, List.mem_toFinset, List.mem_filter, mem_slots_iff, beq_iff_eq, and_comm]

/-- The number of values in a bucket is the number of its slots in use. -/
lemma size_eq_card_usedSlots (s : Store) (bucket : Text) :
    s.size bucket = (s.usedSlots bucket).card := by
  have hnodup : ((s.entries.map Prod.fst).filter (fun slot => slot.bucket == bucket)).Nodup :=
    s.nodup.filter _
  calc s.size bucket
      = (s.entries.map Prod.fst).countP (fun slot => slot.bucket == bucket) := by
        rw [size, List.countP_map]
        rfl
    _ = ((s.entries.map Prod.fst).filter (fun slot => slot.bucket == bucket)).length :=
        List.countP_eq_length_filter
    _ = (s.usedSlots bucket).card := (List.toFinset_card_of_nodup hnodup).symm

/-- Any set that has the slots in use counts the values in a bucket. -/
theorem size_eq_card {s : Store} {bucket : Text} {used : Finset Slot}
    (h : ∀ slot, slot ∈ used ↔ slot.bucket = bucket ∧ (s.find? slot).isSome) :
    s.size bucket = used.card := by
  have hused : s.usedSlots bucket = used := by
    ext slot
    rw [mem_usedSlots, h]
  rw [size_eq_card_usedSlots, hused]

/-- The number of values in a bucket is the number of keys that are found in it. -/
theorem encard_keys (s : Store) (bucket : Text) :
    {key | (s.find? ⟨bucket, key⟩).isSome}.encard = s.size bucket := by
  have hkeys : {key | (s.find? ⟨bucket, key⟩).isSome} =
      Slot.key '' (s.usedSlots bucket : Set Slot) := by
    ext key
    constructor
    · intro hkey
      exact ⟨⟨bucket, key⟩, mem_usedSlots.mpr ⟨rfl, hkey⟩, rfl⟩
    · rintro ⟨slot, hslot, rfl⟩
      obtain ⟨rfl, hfind⟩ := mem_usedSlots.mp hslot
      exact hfind
  have hinj : Set.InjOn Slot.key (s.usedSlots bucket : Set Slot) := by
    intro slot hslot other hother hkey
    have hbucket : slot.bucket = other.bucket :=
      (mem_usedSlots.mp hslot).1.trans (mem_usedSlots.mp hother).1.symm
    cases slot
    cases other
    congr
  rw [hkeys, hinj.encard_image, Set.encard_coe_eq_coe_finsetCard, size_eq_card_usedSlots]

/-! ## Tables -/

variable {κ β : Type} {s : Store} {bucket : Text} {key : κ → Bytes} {record : β → Bytes → Prop}
  {look : κ → Option β}

/-- A bucket has a record of `look k` under the key of each `k`, and no other keys. -/
structure Table (s : Store) (bucket : Text) (key : κ → Bytes) (record : β → Bytes → Prop)
    (look : κ → Option β) : Prop where
  /-- What is found under the key of `k` is a record of `look k`. -/
  rel : ∀ k, Option.Rel record (look k) (s.find? ⟨bucket, key k⟩)
  /-- Every key in use is a key of some `k`. -/
  exists_key : ∀ data, (s.find? ⟨bucket, data⟩).isSome → ∃ k, key k = data

namespace Table

/-- The buckets of the store without values are tables of nothing. -/
lemma empty : Table Store.empty bucket key record (fun _ => none) := by
  constructor
  · intro k
    exact .none
  · intro data h
    cases h

/-- What the function has for `k` has its record under the key of `k`. -/
lemma find?_of_some (h : Table s bucket key record look) {k : κ} {b : β} (hlook : look k = some b) :
    ∃ value, s.find? ⟨bucket, key k⟩ = some value ∧ record b value := by
  have hrel := h.rel k
  rw [hlook] at hrel
  cases hfind : s.find? ⟨bucket, key k⟩ with
  | none =>
    rw [hfind] at hrel
    cases hrel
  | some value =>
    rw [hfind] at hrel
    cases hrel with
    | some hrecord => exact ⟨value, rfl, hrecord⟩

/-- Where the function has nothing there is no value. -/
lemma find?_of_none (h : Table s bucket key record look) {k : κ} (hlook : look k = none) :
    s.find? ⟨bucket, key k⟩ = none := by
  have hrel := h.rel k
  rw [hlook] at hrel
  cases hfind : s.find? ⟨bucket, key k⟩ with
  | none => rfl
  | some value =>
    rw [hfind] at hrel
    cases hrel

/-- What is found under the key of `k` is the record of something that the function has for `k`. -/
lemma exists_of_find? (h : Table s bucket key record look) {k : κ} {value : Bytes}
    (hfind : s.find? ⟨bucket, key k⟩ = some value) : ∃ b, look k = some b ∧ record b value := by
  have hrel := h.rel k
  rw [hfind] at hrel
  cases hlook : look k with
  | none =>
    rw [hlook] at hrel
    cases hrel
  | some b =>
    rw [hlook] at hrel
    cases hrel with
    | some hrecord => exact ⟨b, rfl, hrecord⟩

/-- A value stands under the key of `k` when the function has something for `k`. -/
lemma isSome_find? (h : Table s bucket key record look) (k : κ) :
    (s.find? ⟨bucket, key k⟩).isSome ↔ (look k).isSome := by
  cases hlook : look k with
  | none =>
    rw [h.find?_of_none hlook]
    simp only [Option.isSome_none]
  | some b =>
    obtain ⟨value, hfind, -⟩ := h.find?_of_some hlook
    rw [hfind]
    exact Iff.rfl

/-- A change of the store at the key of `k` alone updates the function there. -/
lemma update [DecidableEq κ] (h : Table s bucket key record look) (hkey : Function.Injective key)
    {s' : Store} {k : κ} {b : Option β} {value : Option Bytes}
    (hfind : ∀ slot, s'.find? slot = if slot = ⟨bucket, key k⟩ then value else s.find? slot)
    (hrel : Option.Rel record b value) :
    Table s' bucket key record (Function.update look k b) := by
  constructor
  · intro k'
    rw [hfind]
    by_cases hk : k' = k
    · subst hk
      rw [if_pos rfl, Function.update_self]
      exact hrel
    · have hslot : (⟨bucket, key k'⟩ : Slot) ≠ ⟨bucket, key k⟩ :=
        fun heq => hk (hkey (congrArg Slot.key heq))
      rw [if_neg hslot, Function.update_of_ne hk]
      exact h.rel k'
  · intro data hdata
    rw [hfind] at hdata
    by_cases hslot : (⟨bucket, data⟩ : Slot) = ⟨bucket, key k⟩
    · exact ⟨k, (congrArg Slot.key hslot).symm⟩
    · rw [if_neg hslot] at hdata
      exact h.exists_key data hdata

/-- Writing a record puts it into the function. -/
lemma insert [DecidableEq κ] (h : Table s bucket key record look) (hkey : Function.Injective key)
    (k : κ) {b : β} {value : Bytes} (hrecord : record b value) :
    Table (s.insert ⟨bucket, key k⟩ value) bucket key record (Function.update look k (some b)) :=
  h.update hkey (fun slot => find?_insert s _ slot value) (.some hrecord)

/-- Erasing a record takes it out of the function. -/
lemma erase [DecidableEq κ] (h : Table s bucket key record look) (hkey : Function.Injective key)
    (k : κ) :
    Table (s.erase ⟨bucket, key k⟩) bucket key record (Function.update look k none) :=
  h.update hkey (fun slot => find?_erase s _ slot) .none

/-- A store with the same values in a bucket has the same table there. -/
lemma congr (h : Table s bucket key record look) {s' : Store}
    (hfind : ∀ data, s'.find? ⟨bucket, data⟩ = s.find? ⟨bucket, data⟩) :
    Table s' bucket key record look := by
  constructor
  · intro k
    rw [hfind]
    exact h.rel k
  · intro data hdata
    rw [hfind] at hdata
    exact h.exists_key data hdata

/-- Writing into another bucket leaves a table as it is. -/
lemma insert_of_ne (h : Table s bucket key record look) {slot : Slot} (hne : slot.bucket ≠ bucket)
    (value : Bytes) : Table (s.insert slot value) bucket key record look := by
  refine h.congr ?_
  intro data
  rw [find?_insert, if_neg]
  rintro rfl
  exact hne rfl

/-- Erasing in another bucket leaves a table as it is. -/
lemma erase_of_ne (h : Table s bucket key record look) {slot : Slot} (hne : slot.bucket ≠ bucket) :
    Table (s.erase slot) bucket key record look := by
  refine h.congr ?_
  intro data
  rw [find?_erase, if_neg]
  rintro rfl
  exact hne rfl

/-- There are as many values in the bucket as places at which the function has something. -/
theorem size_eq (h : Table s bucket key record look) (hkey : Function.Injective key)
    {places : Finset κ} (hplaces : ∀ k, k ∈ places ↔ (look k).isSome) :
    s.size bucket = places.card := by
  classical
  have hslot : Function.Injective (fun k => (⟨bucket, key k⟩ : Slot)) :=
    fun k k' heq => hkey (congrArg Slot.key heq)
  rw [← Finset.card_image_of_injective places hslot]
  refine size_eq_card ?_
  rintro ⟨b, data⟩
  rw [Finset.mem_image]
  constructor
  · rintro ⟨k, hk, heq⟩
    rw [← heq]
    exact ⟨rfl, (h.isSome_find? k).mpr ((hplaces k).mp hk)⟩
  · rintro ⟨rfl, hdata⟩
    obtain ⟨k, rfl⟩ := h.exists_key data hdata
    exact ⟨k, (hplaces k).mpr ((h.isSome_find? k).mp hdata), rfl⟩

/-- Tables of one function have the same bytes, if a record is determined by what it stands for. -/
theorem find?_eq (h : Table s bucket key record look) {s' : Store}
    (h' : Table s' bucket key record look)
    (hrecord : ∀ b value value', record b value → record b value' → value = value')
    (data : Bytes) : s.find? ⟨bucket, data⟩ = s'.find? ⟨bucket, data⟩ := by
  by_cases hkey : ∃ k, key k = data
  · obtain ⟨k, rfl⟩ := hkey
    cases hlook : look k with
    | none => rw [h.find?_of_none hlook, h'.find?_of_none hlook]
    | some b =>
      obtain ⟨value, hfind, hvalue⟩ := h.find?_of_some hlook
      obtain ⟨value', hfind', hvalue'⟩ := h'.find?_of_some hlook
      rw [hfind, hfind', hrecord b value value' hvalue hvalue']
  · rw [Option.not_isSome_iff_eq_none.mp (mt (h.exists_key data) hkey),
      Option.not_isSome_iff_eq_none.mp (mt (h'.exists_key data) hkey)]

end Table

end CoinLedger.Store
