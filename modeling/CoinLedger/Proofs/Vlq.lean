import Mathlib
import CoinLedger.Proofs.Vlq.Value

/-!
# Reading back variable-length integers

The written form of a number is recognised at the front of any byte string: `decode_encode_append`
reads it back at every width that holds the number and leaves the bytes behind it alone.

`length_encode` gives the length of the written form, and `lt_pow_size` bounds a number by that
length, so that a length prefix of a byte string in memory is itself small.
-/

namespace CoinLedger.Vlq

/-! ## Lengths -/

lemma size_pos (n : ℕ) : 0 < size n := by
  rw [size]
  split <;> omega

lemma size_of_le {n : ℕ} (h : n ≤ 127) : size n = 1 := by rw [size, if_pos h]

/-- The leading groups of a number are as many as its groups. -/
lemma length_leading (n : ℕ) : (leading n).length = size n := by
  induction n using leading.induct with
  | case1 n h =>
    rw [leading, size, if_pos h, if_pos h]
    rfl
  | case2 n h ih =>
    rw [leading, size, if_neg h, if_neg h, List.length_append, ih]
    rfl

@[simp] lemma length_encode (n : ℕ) : (encode n).length = size n := by
  rw [encode, size]
  split
  · rfl
  · rw [List.length_append, length_leading]
    rfl

lemma encode_ne_nil (n : ℕ) : encode n ≠ [] := by
  rw [← List.length_pos_iff, length_encode]
  exact size_pos n

lemma encode_of_le {n : ℕ} (h : n ≤ 127) : encode n = [UInt8.ofNat n] := by
  rw [encode, if_pos h]

/-- A number of `k` groups is below `256 ^ k`. -/
lemma lt_pow_size (n : ℕ) : n < 256 ^ size n := by
  induction n using leading.induct with
  | case1 n h =>
    rw [size_of_le h]
    omega
  | case2 n h ih =>
    rw [size, if_neg h, pow_succ]
    omega

/-- A byte string whose length is written in front of it, shifted by a small number, has a length
that fits the width of a word as soon as the whole fits. -/
lemma lt_of_size_add_lt {n k : ℕ} (hk : k ≤ 8) (h : size (n + k) + n < UInt64.size) :
    n + k < UInt64.size := by
  by_contra hge
  have hpow : n + k < 256 ^ size (n + k) := lt_pow_size (n + k)
  have hsize : 8 < size (n + k) := by
    by_contra hle
    have hmono : 256 ^ size (n + k) ≤ 256 ^ 8 := Nat.pow_le_pow_right (by omega) (by omega)
    have hword : (256 : ℕ) ^ 8 = UInt64.size := by decide
    omega
  omega

/-! ## Reading -/

lemma le_largest_iff {bits n : ℕ} : n ≤ largest bits ↔ n < 2 ^ bits := by
  have hpos : 0 < 2 ^ bits := Nat.two_pow_pos bits
  rw [largest, Nat.shiftLeft_eq, one_mul]
  omega

/-- The written form of a number is read back from the front of any byte string, at every width
that holds the number. -/
theorem decode_encode_append {bits n : ℕ} (hbits : 7 ≤ bits) (hn : n ≤ largest bits)
    (rest : Bytes) : decode bits (encode n ++ rest) = .ok ⟨n, size n⟩ := by
  rw [decode_encode_append_of_lt hbits (le_largest_iff.mp hn), length_encode]

/-- A number is read exactly from data that begin with its written form, if it fits. -/
theorem decode_eq_ok_iff_encode {bits : ℕ} (hbits : 7 ≤ bits) {data : Bytes} {d : Decoded ℕ} :
    decode bits data = .ok d ↔
      d.value < 2 ^ bits ∧ d.bytesRead = size d.value ∧ ∃ rest, data = encode d.value ++ rest := by
  obtain ⟨v, k⟩ := d
  constructor
  · intro h
    obtain ⟨-, -, -, -, hv⟩ := (decode_eq_ok_iff hbits).mp h
    have hdata : data = encode v ++ data.drop k := by
      rw [encode_eq_take_of_decode hbits h, List.take_append_drop]
    have hread := decode_encode_append_of_lt hbits hv (data.drop k)
    rw [← hdata, h, length_encode] at hread
    cases hread
    exact ⟨hv, rfl, _, hdata⟩
  · rintro ⟨hv, hk, rest, rfl⟩
    obtain rfl : k = size v := hk
    exact (decode_encode_append_of_lt hbits hv rest).trans (by rw [length_encode])

/-- A small number is read from a single byte. -/
lemma decode_ofNat_cons {bits n : ℕ} (hbits : 7 ≤ bits) (hn : n ≤ 127) (rest : Bytes) :
    decode bits (UInt8.ofNat n :: rest) = .ok ⟨n, 1⟩ := by
  have hlargest : n ≤ largest bits := by
    rw [le_largest_iff]
    calc n < 2 ^ 7 := by omega
      _ ≤ 2 ^ bits := Nat.pow_le_pow_right (by omega) hbits
  have h := decode_encode_append hbits hlargest rest
  rwa [encode_of_le hn, size_of_le hn] at h

lemma le_largest_of_lt {n : ℕ} (h : n < UInt64.size) : n ≤ largest 64 :=
  Nat.le_pred_of_lt h

/-- Different numbers have different written forms. -/
lemma encode_injective : Function.Injective encode :=
  Function.LeftInverse.injective value_encode

end CoinLedger.Vlq
