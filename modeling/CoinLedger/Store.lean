import CoinLedger.Error

/-!
# Stores

A store maps keys to values inside named buckets and has at most one value per bucket and key.
`find?` is the view by which the operations are described: writing changes the view at one pair
of bucket and key, and erasing empties it there.
-/

namespace CoinLedger

/-- The address of a value. -/
structure Slot where
  /-- The name of the bucket. -/
  bucket : Text
  /-- The key in the bucket. -/
  key : Bytes
  deriving DecidableEq

/-- A map from slots to values. -/
structure Store where
  /-- The slots in use with their values. -/
  entries : List (Slot × Bytes)
  /-- No slot is used twice. -/
  nodup : (entries.map Prod.fst).Nodup

namespace Store

/-- The store without values. -/
def empty : Store := ⟨[], List.nodup_nil⟩

/-- The value in a slot. -/
def find? (s : Store) (slot : Slot) : Option Bytes := s.entries.lookup slot

/-- The entries outside a slot. -/
def without (entries : List (Slot × Bytes)) (slot : Slot) : List (Slot × Bytes) :=
  entries.filter (fun entry => entry.1 ≠ slot)

/-- Leaving entries out repeats no slot. -/
theorem nodup_without {entries : List (Slot × Bytes)} (h : (entries.map Prod.fst).Nodup)
    (slot : Slot) : ((without entries slot).map Prod.fst).Nodup :=
  h.sublist (List.filter_sublist.map _)

/-- A slot that is left out does not occur. -/
theorem notMem_without (entries : List (Slot × Bytes)) (slot : Slot) :
    slot ∉ (without entries slot).map Prod.fst := by
  simp [without]

/-- Writes a value into a slot. -/
def insert (s : Store) (slot : Slot) (value : Bytes) : Store :=
  ⟨(slot, value) :: without s.entries slot,
    List.nodup_cons.2 ⟨notMem_without s.entries slot, nodup_without s.nodup slot⟩⟩

/-- Empties a slot. -/
def erase (s : Store) (slot : Slot) : Store :=
  ⟨without s.entries slot, nodup_without s.nodup slot⟩

/-- Reads the value in a slot. -/
def get (s : Store) (slot : Slot) : Except Error Bytes :=
  match s.find? slot with
  | some value => .ok value
  | none => .error ⟨.noEntry slot.bucket, 0⟩

/-- Looking past an entry of another slot. -/
theorem lookup_cons_of_ne {slot first : Slot} (h : slot ≠ first) (value : Bytes)
    (rest : List (Slot × Bytes)) : ((first, value) :: rest).lookup slot = rest.lookup slot := by
  have hbeq : (slot == first) = false := beq_eq_false_iff_ne.2 h
  simp [List.lookup_cons, hbeq]

/-- Leaving a slot out empties it in the view and changes nothing else. -/
theorem lookup_without (entries : List (Slot × Bytes)) (slot other : Slot) :
    (without entries slot).lookup other = if other = slot then none else entries.lookup other := by
  induction entries with
  | nil => simp [without]
  | cons entry rest ih =>
    obtain ⟨first, value⟩ := entry
    have hcons : without ((first, value) :: rest) slot =
        if first = slot then without rest slot else (first, value) :: without rest slot := by
      by_cases h : first = slot <;> simp [without, h]
    rw [hcons]
    by_cases hfirst : first = slot
    · rw [if_pos hfirst, ih]
      by_cases hother : other = slot
      · simp [hother]
      · rw [if_neg hother, if_neg hother, lookup_cons_of_ne (hfirst ▸ hother)]
    · rw [if_neg hfirst]
      by_cases hother : other = first
      · subst hother
        simp [hfirst]
      · rw [lookup_cons_of_ne hother, lookup_cons_of_ne hother, ih]

/-- Writing is seen in its slot and nowhere else. -/
theorem find?_insert (s : Store) (slot other : Slot) (value : Bytes) :
    (s.insert slot value).find? other = if other = slot then some value else s.find? other := by
  by_cases h : other = slot
  · simp [find?, insert, h]
  · simp only [find?, insert]
    rw [lookup_cons_of_ne h, lookup_without, if_neg h, if_neg h]

/-- Erasing is seen in its slot and nowhere else. -/
theorem find?_erase (s : Store) (slot other : Slot) :
    (s.erase slot).find? other = if other = slot then none else s.find? other :=
  lookup_without s.entries slot other

/-- Whether there is a value in a slot. -/
def contains (s : Store) (slot : Slot) : Bool := s.entries.any (fun entry => entry.1 == slot)

/-- The number of values in a bucket. -/
def size (s : Store) (bucket : Text) : Nat :=
  s.entries.countP (fun entry => entry.1.bucket == bucket)

end Store

end CoinLedger
