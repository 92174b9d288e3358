import Mathlib
import CoinLedger.Proofs.Vlq.Buffer

/-!
# How far the reader of an integer looks

A number of `bits` bits has at most `maxBytes bits` bytes, and the reader looks at no more of them.  Every
byte with bit 7 adds one to what has been read, so a number grows at least by a factor of 128 from byte to
byte, and after `maxBytes bits` bytes it has outgrown the width, however small its groups are
(`OutgrowsWithin`).

`scan` reads as `decode` does and counts the bytes that it looks at.  It looks at those that the outcome
counts as read (`bytesCounted_decode`), these are at most `maxBytes bits` (`scan_snd_le`), and of the data
behind them nothing matters but whether there are any (`scanFrom_take`).
-/

namespace CoinLedger.Vlq

/-! ## Bytes that are looked at -/

/-- Goes on reading as `decodeFrom` does, and counts the bytes that it looks at. -/
def scanFrom (bits : ℕ) : Bytes → ℕ → ℕ → Except Error (Decoded ℕ) × ℕ
  | [], read, _ => (.error ⟨if read = 0 then .integerMissing else .integerUnterminated, read⟩, 0)
  | b :: rest, read, acc =>
    if acc >>> (bits - 7) ≠ 0 then (.error ⟨.integerTooWide bits, read⟩, 0)
    else
      let value := acc * 128 + b.toNat % 128
      if b.toNat < 128 then (.ok ⟨value, read + 1⟩, 1)
      else if value = largest bits then (.error ⟨.integerTooWide bits, read + 1⟩, 1)
      else
        let (outcome, seen) := scanFrom bits rest (read + 1) (value + 1)
        (outcome, seen + 1)

/-- Reads a number from the front of the data, and counts the bytes that it looks at. -/
def scan (bits : ℕ) (data : Bytes) : Except Error (Decoded ℕ) × ℕ := scanFrom bits data 0 0

/-- The bytes that an outcome counts as read. -/
def bytesCounted : Except Error (Decoded ℕ) → ℕ
  | .ok d => d.bytesRead
  | .error e => e.bytesRead

variable {bits : ℕ}

/-- What is read does not depend on whether the bytes are counted. -/
lemma scanFrom_fst (data : Bytes) (read acc : ℕ) :
    (scanFrom bits data read acc).1 = decodeFrom bits data read acc := by
  induction data generalizing read acc with
  | nil => rfl
  | cons b rest ih =>
    rw [scanFrom, decodeFrom]
    split
    next => rfl
    next =>
      dsimp only
      split
      next => rfl
      next =>
        split
        next => rfl
        next => exact ih (read + 1) _

/-- The bytes that are looked at are the ones that are counted as read. -/
lemma bytesCounted_scanFrom (data : Bytes) (read acc : ℕ) :
    bytesCounted (scanFrom bits data read acc).1 = read + (scanFrom bits data read acc).2 := by
  induction data generalizing read acc with
  | nil => rfl
  | cons b rest ih =>
    rw [scanFrom]
    split
    next => rfl
    next =>
      dsimp only
      split
      next => rfl
      next =>
        split
        next => rfl
        next =>
          dsimp only
          rw [ih, Nat.add_assoc, Nat.add_comm 1]

/-- Of the data behind the bytes that are looked at nothing matters but whether there are any. -/
lemma scanFrom_take {n : ℕ} (data : Bytes) (read acc : ℕ)
    (h : (scanFrom bits data read acc).2 < n) :
    scanFrom bits (data.take n) read acc = scanFrom bits data read acc := by
  induction data generalizing n read acc with
  | nil => rw [List.take_nil]
  | cons b rest ih =>
    obtain ⟨n, rfl⟩ := Nat.exists_eq_add_one.mpr (Nat.zero_lt_of_lt h)
    rw [List.take_succ_cons, scanFrom, scanFrom]
    rw [scanFrom] at h
    split
    next => rfl
    next hroom =>
      rw [if_neg hroom] at h
      dsimp only at h ⊢
      split
      next => rfl
      next hmore =>
        rw [if_neg hmore] at h
        split
        next => rfl
        next hfits =>
          rw [if_neg hfits] at h
          rw [ih (read + 1) _ (Nat.lt_of_succ_lt_succ h)]

/-! ## Numbers that outgrow their width -/

/-- Whether a number outgrows its width within `left` more groups, however small they are. -/
def OutgrowsWithin (bits acc left : ℕ) : Prop := 2 ^ bits ≤ (acc * 128 + 1) * 128 ^ left

/-- No number has more groups than the width. -/
lemma outgrowsWithin_maxBytes : OutgrowsWithin bits 0 (maxBytes bits) := by
  rw [OutgrowsWithin, Nat.zero_mul, Nat.zero_add, one_mul]
  exact two_pow_le_pow_maxBytes bits

/-- A number that outgrows its width with no more group has no room for one. -/
lemma OutgrowsWithin.two_pow_le {acc : ℕ} (hbits : 7 ≤ bits) (h : OutgrowsWithin bits acc 0) :
    2 ^ bits ≤ acc * 128 := by
  have hdvd : 128 ∣ 2 ^ bits := pow_dvd_pow 2 hbits
  rw [OutgrowsWithin, pow_zero, mul_one] at h
  omega

/-- A further group takes one of the places that are left, whatever it says. -/
lemma OutgrowsWithin.succ {acc left : ℕ} (h : OutgrowsWithin bits acc (left + 1)) (group : ℕ) :
    OutgrowsWithin bits (acc * 128 + group + 1) left := by
  have hgrow : (acc * 128 + 1) * 128 ≤ (acc * 128 + group + 1) * 128 + 1 := by omega
  calc 2 ^ bits ≤ (acc * 128 + 1) * 128 ^ (left + 1) := h
    _ = (acc * 128 + 1) * 128 * 128 ^ left := by rw [pow_succ']; ring
    _ ≤ ((acc * 128 + group + 1) * 128 + 1) * 128 ^ left := Nat.mul_le_mul_right _ hgrow

/-- The reader looks at no more bytes than there are, and at no more than it takes to outgrow the
width. -/
lemma scanFrom_snd_le {left : ℕ} (hbits : 7 ≤ bits) (data : Bytes) (read : ℕ) {acc : ℕ}
    (h : OutgrowsWithin bits acc left) :
    (scanFrom bits data read acc).2 ≤ min data.length left := by
  induction data generalizing read acc left with
  | nil => exact Nat.zero_le _
  | cons b rest ih =>
    rw [scanFrom]
    split
    next => exact Nat.zero_le _
    next hroom =>
      -- there is room for this byte, so it is one of those that are left
      obtain ⟨left, rfl⟩ : ∃ k, left = k + 1 := by
        refine Nat.exists_eq_succ_of_ne_zero ?_
        rintro rfl
        exact hroom ((shiftRight_ne_zero_iff hbits).mpr (h.two_pow_le hbits))
      have hfirst : 1 ≤ min (b :: rest).length (left + 1) := by
        rw [List.length_cons]
        omega
      dsimp only
      split
      next => exact hfirst
      next =>
        split
        next => exact hfirst
        next =>
          have hmin : min (b :: rest).length (left + 1) = min rest.length left + 1 :=
            Nat.succ_min_succ _ _
          rw [hmin]
          exact Nat.succ_le_succ (ih (read + 1) (h.succ _))

/-! ## Integers -/

lemma scan_fst (data : Bytes) : (scan bits data).1 = decode bits data := scanFrom_fst data 0 0

lemma bytesCounted_decode (data : Bytes) :
    bytesCounted (decode bits data) = (scan bits data).2 := by
  rw [← scan_fst, scan, bytesCounted_scanFrom, Nat.zero_add]

lemma scan_snd_le (hbits : 7 ≤ bits) (data : Bytes) :
    (scan bits data).2 ≤ min data.length (maxBytes bits) :=
  scanFrom_snd_le hbits data 0 outgrowsWithin_maxBytes

/-- One byte more than a number can have is enough to know what is read. -/
lemma decode_take_maxBytes (hbits : 7 ≤ bits) (data : Bytes) :
    decode bits (data.take (maxBytes bits + 1)) = decode bits data := by
  have hseen := (scan_snd_le hbits data).trans (min_le_right _ _)
  rw [← scan_fst, ← scan_fst, scan, scanFrom_take data 0 0 (Nat.lt_succ_of_le hseen), scan]

/-- A number ends among the bytes that are read. -/
lemma exists_last_of_decode (hbits : 7 ≤ bits) {data : Bytes} {d : Decoded ℕ}
    (h : decode bits data = .ok d) : 1 ≤ d.bytesRead ∧ ∃ b ∈ data.take d.bytesRead, b.toNat < 128 := by
  obtain ⟨i, hend, hread, -⟩ := (decode_eq_ok_iff hbits).mp h
  obtain ⟨hi, hlast, -⟩ := List.findIdx?_eq_some_iff_getElem.mp hend
  refine ⟨by omega, data[i], ?_, by simpa using hlast⟩
  exact List.mem_take_iff_getElem.mpr ⟨i, by omega, rfl⟩

/-- Bytes with bit 7, as many as a number can have and with something behind them, are refused as too
large. -/
lemma exists_tooWide_of_forall_take (hbits : 7 ≤ bits) {data : Bytes}
    (hrun : ∀ b ∈ data.take (maxBytes bits), 128 ≤ b.toNat) (hmore : maxBytes bits < data.length) :
    ∃ k ≤ maxBytes bits, decode bits data = .error ⟨.integerTooWide bits, k⟩ := by
  have hseen := (scan_snd_le hbits data).trans (min_le_right _ _)
  rw [← bytesCounted_decode] at hseen
  cases hdecode : decode bits data with
  | ok d =>
    rw [hdecode] at hseen
    obtain ⟨-, b, hb, hlast⟩ := exists_last_of_decode hbits hdecode
    have hbit := hrun b (List.take_subset_take_left data hseen hb)
    omega
  | error e =>
    rw [hdecode] at hseen
    obtain ⟨fault, k⟩ := e
    rcases tooWide_or_short_of_decode hbits hdecode with rfl | ⟨-, rfl⟩
    · exact ⟨k, hseen, rfl⟩
    · -- missing bytes are reported where the data end, and that is further on
      exact absurd hseen (not_le_of_gt hmore)

/-- The reader of an integer looks ahead within bounds: it looks at no more bytes than there are and than
an integer of that width can have, and these are the ones that its outcome counts as read.  The data may
as well be cut one byte further on, in words too.  An integer that is read has at least one byte, and
bytes with bit 7 that fill the bound are refused there, however many follow. -/
theorem look_ahead_bounded (hbits : 8 ≤ bits) (data : Bytes) :
    ((scan bits data).1 = decode bits data ∧ (scan bits data).2 = bytesCounted (decode bits data) ∧
      (scan bits data).2 ≤ min data.length (maxBytes bits)) ∧
    decode bits data = decode bits (data.take (maxBytes bits + 1)) ∧
    decodeWord bits data = decodeWord bits (data.take (maxBytes bits + 1)) ∧
    (∀ d, decode bits data = .ok d →
      1 ≤ d.bytesRead ∧ d.bytesRead ≤ min data.length (maxBytes bits)) ∧
    ((∀ b ∈ data.take (maxBytes bits), 128 ≤ b.toNat) → maxBytes bits < data.length →
      ∃ k ≤ maxBytes bits, decode bits data = .error ⟨.integerTooWide bits, k⟩) := by
  have hgroup : 7 ≤ bits := by omega
  have hseen := scan_snd_le hgroup data
  have hcut := (decode_take_maxBytes hgroup data).symm
  refine ⟨⟨scan_fst data, (bytesCounted_decode data).symm, hseen⟩, hcut, ?_, ?_, ?_⟩
  · rw [decodeWord_eq hbits, decodeWord_eq hbits, hcut]
  · intro d h
    refine ⟨(exists_last_of_decode hgroup h).1, ?_⟩
    rwa [← bytesCounted_decode, h] at hseen
  · intro hrun hmore
    exact exists_tooWide_of_forall_take hgroup hrun hmore

/-- At 64 bits a run of a thousand bytes with bit 7 is refused within the first ten, as its first eleven bytes
are; and at eight bits 255 takes the two bytes that there may be. -/
theorem look_ahead_bounded_longRun :
    decode 64 (List.replicate 1000 0x80) = decode 64 (List.replicate 11 0x80) ∧
    (∃ k ≤ 10, decode 64 (List.replicate 1000 0x80) = .error ⟨.integerTooWide 64, k⟩) ∧
    decode 8 [0x80, 0x7F, 0xAA] = .ok ⟨255, 2⟩ ∧
    2 ≤ min [0x80, 0x7F, 0xAA].length (maxBytes 8) := by
  obtain ⟨-, hcut, -, -, hrun⟩ :=
    look_ahead_bounded (by decide : 8 ≤ 64) (List.replicate 1000 0x80)
  obtain ⟨-, -, -, hread, -⟩ := look_ahead_bounded (le_refl 8) [0x80, 0x7F, 0xAA]
  have hbytes : maxBytes 64 = 10 := rfl
  have hnarrow : decode 8 [0x80, 0x7F, 0xAA] = .ok ⟨255, 2⟩ := by decide
  rw [hbytes, List.take_replicate] at hcut hrun
  rw [List.length_replicate] at hrun
  refine ⟨hcut, hrun ?_ (by decide), hnarrow, (hread _ hnarrow).2⟩
  intro b hb
  rw [List.eq_of_mem_replicate hb]
  decide

end CoinLedger.Vlq
