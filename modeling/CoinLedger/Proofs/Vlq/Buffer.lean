import Mathlib
import CoinLedger.Proofs.Vlq
import CoinLedger.Proofs.Vlq.Word

/-!
# Variable-length integers in a buffer

A number is written backwards into a buffer whose size depends on its width alone.  The buffer is large
enough for every number of that width (`size_le_maxBytes`), so `append` always writes, and it writes the
bytes of `encode` (`append_eq`), which are as many as `size` counts without writing.

Computers count in words of a fixed width, `sizeWord`, and find the same number of bytes; they store these
bytes from the last cell of a buffer down, `storeWordBelow`, and `stored_within_buffers` says where they
arrive.
-/

namespace CoinLedger.Vlq

/-! ## Counting -/

/-- The number of bytes of a word in written form, counted in words. -/
def sizeWord {w : ℕ} (n : BitVec w) : ℕ := if n.toNat ≤ 127 then 1 else sizeWord (n >>> 7 - 1#w) + 1
termination_by n.toNat
decreasing_by
  rw [toNat_shiftRight_sub_one ‹_›]
  omega

/-- No step of the count wraps. -/
lemma sizeWord_eq {w : ℕ} (n : BitVec w) : sizeWord n = size n.toNat := by
  induction n using sizeWord.induct with
  | case1 n h => rw [sizeWord, size, if_pos h, if_pos h]
  | case2 n h ih => rw [sizeWord, size, if_neg h, if_neg h, ih, toNat_shiftRight_sub_one h]

/-- A larger number takes no fewer bytes. -/
lemma size_mono : Monotone size := by
  intro n m h
  induction m using size.induct generalizing n with
  | case1 m hm => rw [size_of_le (h.trans hm), size_of_le hm]
  | case2 m hm ih =>
    have hprev : size (n / 128 - 1) ≤ size (m / 128 - 1) :=
      ih (Nat.sub_le_sub_right (Nat.div_le_div_right h) 1)
    have hm_size : size m = size (m / 128 - 1) + 1 := by rw [size, if_neg hm]
    rw [size, hm_size]
    split <;> omega

/-- `k` groups are enough for the numbers below `128 ^ k`. -/
lemma size_le_of_lt_pow {k n : ℕ} (h : n < 128 ^ (k + 1)) : size n ≤ k + 1 := by
  induction k generalizing n with
  | zero => rw [size_of_le (by omega)]
  | succ k ih =>
    rw [size]
    split
    next => omega
    next =>
      have hquot : n / 128 < 128 ^ (k + 1) := Nat.div_lt_of_lt_mul (by rwa [← pow_succ'])
      have hprev := ih (n := n / 128 - 1) (by omega)
      omega

/-- The buffer for a width has groups enough for every number of that width. -/
lemma two_pow_le_pow_maxBytes (bits : ℕ) : 2 ^ bits ≤ 128 ^ maxBytes bits := by
  calc 2 ^ bits ≤ 2 ^ (7 * maxBytes bits) := Nat.pow_le_pow_right (by omega) (by rw [maxBytes]; omega)
    _ = 128 ^ maxBytes bits := pow_mul 2 7 (maxBytes bits)

/-- Every number of `bits` bits fits into the buffer for that width. -/
lemma size_le_maxBytes {bits n : ℕ} (hbits : 0 < bits) (hn : n < 2 ^ bits) : size n ≤ maxBytes bits := by
  have hlt : n < 128 ^ maxBytes bits := hn.trans_le (two_pow_le_pow_maxBytes bits)
  obtain ⟨k, hk⟩ : ∃ k, maxBytes bits = k + 1 := Nat.exists_eq_add_one.mpr (by rw [maxBytes]; omega)
  rw [hk] at hlt ⊢
  exact size_le_of_lt_pow hlt

/-! ## Filling -/

/-- The groups in front of the last one are filled in backwards, each with bit 7. -/
lemma fill_mark {room n : ℕ} (h : size n ≤ room) (tail : Bytes) :
    fill room n 128 tail = some (room - size n, leading n ++ tail) := by
  induction n using leading.induct generalizing room tail with
  | case1 n hn =>
    rw [size_of_le hn] at h ⊢
    obtain ⟨room, rfl⟩ := Nat.exists_eq_add_of_le' h
    rw [fill, leading, if_pos hn, if_pos hn, Nat.mod_eq_of_lt (by omega)]
    rfl
  | case2 n hn ih =>
    rw [size, if_neg hn] at h ⊢
    obtain ⟨room, rfl⟩ := Nat.exists_eq_add_of_le' (Nat.one_le_of_lt h)
    rw [fill, leading, if_neg hn, if_neg hn, ih (by omega), List.append_assoc, Nat.add_sub_add_right]
    rfl

/-- A number that fits is filled in as it is written. -/
lemma fill_zero {room n : ℕ} (h : size n ≤ room) (tail : Bytes) :
    fill room n 0 tail = some (room - size n, encode n ++ tail) := by
  by_cases hn : n ≤ 127
  · rw [size_of_le hn] at h ⊢
    obtain ⟨room, rfl⟩ := Nat.exists_eq_add_of_le' h
    rw [fill, encode, if_pos hn, if_pos hn, Nat.mod_eq_of_lt (by omega)]
    rfl
  · rw [size, if_neg hn] at h ⊢
    obtain ⟨room, rfl⟩ := Nat.exists_eq_add_of_le' (Nat.one_le_of_lt h)
    rw [fill, encode, if_neg hn, if_neg hn, fill_mark (by omega), List.append_assoc,
      Nat.add_sub_add_right]
    rfl

/-- A number that needs more cells than are left does not fit. -/
lemma fill_of_lt_size {room n : ℕ} (h : room < size n) (mark : ℕ) (tail : Bytes) :
    fill room n mark tail = none := by
  induction room generalizing n mark tail with
  | zero => rfl
  | succ room ih =>
    have hlarge : ¬ n ≤ 127 := by
      intro hn
      rw [size_of_le hn] at h
      omega
    rw [size, if_neg hlarge] at h
    rw [fill, if_neg hlarge]
    exact ih (by omega) _ _

/-- What is written behind other bytes is the written form. -/
theorem append_eq {bits n : ℕ} (hbits : 0 < bits) (hn : n < 2 ^ bits) (out : Bytes) :
    append bits out n = out ++ encode n := by
  rw [append, fill_zero (size_le_maxBytes hbits hn), List.append_nil]

/-! ## Cells -/

/-- Stores a word backwards into the cells of a buffer below the index `pos`, with `mark` in the first
byte stored: the buffer and the index of the byte stored last, or `none` if the index would have to go
below zero. -/
def storeWordBelow {w : ℕ} (buffer : Bytes) (pos : ℕ) (n : BitVec w) (mark : UInt8) :
    Option (Bytes × ℕ) :=
  match pos with
  | 0 => none
  | pos + 1 =>
    let buffer := buffer.set pos (UInt8.ofBitVec ((n &&& 127#w).setWidth 8) ||| mark)
    if n.toNat ≤ 127 then some (buffer, pos) else storeWordBelow buffer pos (n >>> 7 - 1#w) 0x80

/-- Filling leaves at most the cells that were there. -/
lemma le_room_of_fill {room n mark : ℕ} {tail : Bytes} {filled : ℕ × Bytes}
    (h : fill room n mark tail = some filled) : filled.1 ≤ room := by
  induction room generalizing n mark tail with
  | zero => cases h
  | succ room ih =>
    rw [fill] at h
    split at h
    next =>
      cases h
      exact Nat.le_succ room
    next => exact (ih h).trans (Nat.le_succ room)

/-- Storing a word is filling the cells in front of `tail`; the cells that are left keep their bytes. -/
lemma storeWordBelow_eq_map_fill {w : ℕ} (hw : 8 ≤ w) {mark : UInt8} {k : ℕ}
    (hmark : ∀ g < 128, UInt8.ofNat g ||| mark = UInt8.ofNat (g + k)) (front tail : Bytes)
    (n : BitVec w) :
    storeWordBelow (front ++ tail) front.length n mark =
      (fill front.length n.toNat k tail).map fun filled =>
        (front.take filled.1 ++ filled.2, filled.1) := by
  induction front using List.reverseRecOn generalizing mark k tail n with
  | nil => rfl
  | append_singleton front cell ih =>
    have hset : ∀ b : UInt8, (front ++ [cell] ++ tail).set front.length b = front ++ b :: tail := by
      intro b
      rw [List.append_assoc, List.set_append_right _ _ le_rfl, Nat.sub_self]
      rfl
    have hgroup := hmark (n.toNat % 128) (Nat.mod_lt _ (by omega))
    rw [List.length_append, List.length_singleton, storeWordBelow, fill, hset, ofBitVec_group hw, hgroup]
    -- the cell behind `front` has been stored; the groups before it go into `front`
    by_cases hn : n.toNat ≤ 127
    · rw [if_pos hn, if_pos hn, Option.map_some, List.take_left]
    · rw [if_neg hn, if_neg hn, ih (fun g hg => ofNat_or_mark hg), toNat_shiftRight_sub_one hn]
      apply Option.map_congr
      intro filled hfilled
      rw [List.take_append_of_le_length (le_room_of_fill hfilled)]

/-- A word that fits is stored in the last cells of a buffer, and the cells before them stay. -/
lemma storeWordBelow_length {w : ℕ} (hw : 8 ≤ w) {buffer : Bytes} {n : BitVec w}
    (h : size n.toNat ≤ buffer.length) :
    storeWordBelow buffer buffer.length n 0 =
      some (buffer.take (buffer.length - size n.toNat) ++ encode n.toNat,
        buffer.length - size n.toNat) := by
  have hmark : ∀ g < 128, UInt8.ofNat g ||| 0 = UInt8.ofNat (g + 0) := fun _ _ => UInt8.or_zero
  have hstore := storeWordBelow_eq_map_fill hw hmark buffer [] n
  rwa [List.append_nil, fill_zero h, Option.map_some, List.append_nil] at hstore

/-- Every word is stored in the last cells of any buffer of the size for its width, and the cells in front of
them stay; a buffer of as many cells as are counted before is filled to its first cell, and a smaller one is
too small.  The bytes stored are those of `encode`, which `append` puts behind other bytes, and a smaller
number has no more of them. -/
theorem stored_within_buffers {bits : ℕ} (hbits : 8 ≤ bits) :
    (∀ n : BitVec bits,
      (∀ out, append bits out n.toNat = out ++ encode n.toNat) ∧
      (encode n.toNat).length = size n.toNat ∧ sizeWord n = size n.toNat ∧
      (∃ start, start + size n.toNat = maxBytes bits ∧
        fill (maxBytes bits) n.toNat 0 [] = some (start, encode n.toNat) ∧
        ∀ buffer : Bytes, buffer.length = maxBytes bits →
          storeWordBelow buffer (maxBytes bits) n 0 =
            some (buffer.take start ++ encode n.toNat, start)) ∧
      fill (size n.toNat) n.toNat 0 [] = some (0, encode n.toNat) ∧
      storeWordBelow (List.replicate (sizeWord n) 0) (sizeWord n) n 0 = some (encode n.toNat, 0) ∧
      ∀ room, room < size n.toNat → fill room n.toNat 0 [] = none) ∧
    ∀ n m, n ≤ m → size n ≤ size m := by
  refine ⟨?_, fun n m h => size_mono h⟩
  intro n
  have hfits : size n.toNat ≤ maxBytes bits := size_le_maxBytes (by omega) n.isLt
  refine ⟨append_eq (by omega) n.isLt, length_encode _, sizeWord_eq n, ?_, ?_, ?_, ?_⟩
  · refine ⟨maxBytes bits - size n.toNat, by omega, ?_, ?_⟩
    · rw [fill_zero hfits, List.append_nil]
    · intro buffer hbuffer
      have hstore := storeWordBelow_length hbits (n := n) (hbuffer ▸ hfits)
      rwa [hbuffer] at hstore
  · rw [fill_zero le_rfl, List.append_nil, Nat.sub_self]
  · have hcells : (List.replicate (sizeWord n) (0 : UInt8)).length = size n.toNat := by
      rw [List.length_replicate, sizeWord_eq]
    have hstore := storeWordBelow_length hbits (n := n) hcells.ge
    rwa [hcells, Nat.sub_self, List.take_zero, List.nil_append, ← sizeWord_eq] at hstore
  · intro room hroom
    exact fill_of_lt_size hroom 0 []

/-- The largest number of 64 bits is stored in all ten cells of the buffer for that width, whatever was in
them.  A number of one byte leaves the other cell of the buffer for eight bits alone, and 255 takes both. -/
theorem stored_largest_words :
    (∀ buffer : Bytes, buffer.length = 10 →
      storeWordBelow buffer 10 (BitVec.allOnes 64) 0 =
        some ([0x80, 0xFE, 0xFE, 0xFE, 0xFE, 0xFE, 0xFE, 0xFE, 0xFE, 0x7F], 0)) ∧
    storeWordBelow [0xAA, 0xBB] 2 7#8 0 = some ([0xAA, 0x07], 1) ∧
    storeWordBelow [0, 0] 2 255#8 0 = some ([0x80, 0x7F], 0) ∧ fill 1 255 0 [] = none := by
  obtain ⟨hwide, -⟩ := stored_within_buffers (by decide : 8 ≤ 64)
  obtain ⟨hnarrow, -⟩ := stored_within_buffers (le_refl 8)
  refine ⟨?_, ?_, ?_, ?_⟩
  · obtain ⟨-, -, -, ⟨start, hstart, -, hstore⟩, -⟩ := hwide (BitVec.allOnes 64)
    have hsize : size (BitVec.allOnes 64).toNat = 10 := by cbv
    have hencode : encode (BitVec.allOnes 64).toNat =
        [0x80, 0xFE, 0xFE, 0xFE, 0xFE, 0xFE, 0xFE, 0xFE, 0xFE, 0x7F] := by cbv
    have hroom : maxBytes 64 = 10 := rfl
    obtain rfl : start = 0 := by omega
    intro buffer hbuffer
    rw [← hencode]
    exact hstore buffer hbuffer
  · obtain ⟨-, -, -, ⟨start, hstart, -, hstore⟩, -⟩ := hnarrow 7#8
    have hsize : size (7#8).toNat = 1 := by cbv
    have hencode : encode (7#8).toNat = [0x07] := by cbv
    have hroom : maxBytes 8 = 2 := rfl
    obtain rfl : start = 1 := by omega
    rw [hencode] at hstore
    exact hstore [0xAA, 0xBB] rfl
  · obtain ⟨-, -, -, -, -, hstore, -⟩ := hnarrow 255#8
    have hsize : sizeWord 255#8 = 2 := by cbv
    have hencode : encode (255#8).toNat = [0x80, 0x7F] := by cbv
    rw [hsize, hencode] at hstore
    exact hstore
  · obtain ⟨-, -, -, -, -, -, htight⟩ := hnarrow 255#8
    have hsize : size (255#8).toNat = 2 := by cbv
    exact htight 1 (by omega)

end CoinLedger.Vlq
