import Mathlib
import CoinLedger.Amount

/-!
# Amounts survive their codes

`expand_compress`: the code of an amount stands for that amount, so `decompress_compress` gives it
back.  A code is at most ten times its amount (`compress_le`) and fits the width at which codes
are stored with room to spare.

The two shapes of a code, with fewer than nine factors of ten taken out and with nine, are
expanded by `expand_of_lt` and `expand_nine`.
-/

namespace CoinLedger.Amount

/-! ## Factors of ten -/

/-- The quotient and the factors taken out make up the number. -/
lemma stripZeros_mul_pow (limit n : ℕ) :
    (stripZeros limit n).1 * 10 ^ (stripZeros limit n).2 = n := by
  induction limit generalizing n with
  | zero => exact mul_one n
  | succ limit ih =>
    rw [stripZeros]
    split
    next h =>
      have hdiv : n / 10 * 10 = n := Nat.div_mul_cancel (Nat.dvd_of_mod_eq_zero h)
      dsimp only
      rw [pow_succ, ← mul_assoc, ih, hdiv]
    next h => exact mul_one n

lemma stripZeros_snd_le (limit n : ℕ) : (stripZeros limit n).2 ≤ limit := by
  induction limit generalizing n with
  | zero => exact le_rfl
  | succ limit ih =>
    rw [stripZeros]
    split
    next h => exact Nat.succ_le_succ (ih (n / 10))
    next h => exact Nat.zero_le _

/-- Below the limit every factor has been taken out. -/
lemma stripZeros_fst_mod_ne_zero {limit n : ℕ} (h : (stripZeros limit n).2 < limit) :
    (stripZeros limit n).1 % 10 ≠ 0 := by
  induction limit generalizing n with
  | zero => exact absurd h (Nat.not_lt_zero _)
  | succ limit ih =>
    rw [stripZeros] at h ⊢
    split at h
    next hdvd =>
      rw [if_pos hdvd]
      exact ih (Nat.lt_of_succ_lt_succ h)
    next hdvd =>
      rw [if_neg hdvd]
      exact hdvd

lemma stripZeros_fst_pos (limit : ℕ) {n : ℕ} (hn : 0 < n) : 0 < (stripZeros limit n).1 := by
  have hmul := stripZeros_mul_pow limit n
  by_contra hzero
  rw [Nat.eq_zero_of_not_pos hzero, Nat.zero_mul] at hmul
  omega

lemma addZeros_eq (e n : ℕ) : addZeros e n = n * 10 ^ e := by
  induction e generalizing n with
  | zero => exact (mul_one n).symm
  | succ e ih => rw [addZeros, ih, pow_succ, mul_assoc, mul_comm 10]

/-! ## Codes -/

/-- A code whose digit is kept stands for the quotient with its factors of ten. -/
lemma expand_of_lt {n e : ℕ} (he : e < 9) (hn : n % 10 ≠ 0) :
    expand (1 + (n / 10 * 9 + n % 10 - 1) * 10 + e) = n * 10 ^ e := by
  have hdigit : (1 + (n / 10 * 9 + n % 10 - 1) * 10 + e - 1) % 10 = e := by omega
  have hrest : (1 + (n / 10 * 9 + n % 10 - 1) * 10 + e - 1) / 10 = n / 10 * 9 + n % 10 - 1 := by
    omega
  have hquot : (n / 10 * 9 + n % 10 - 1) / 9 * 10 + ((n / 10 * 9 + n % 10 - 1) % 9 + 1) = n := by
    omega
  rw [expand, if_neg (by omega)]
  dsimp only
  rw [hdigit, hrest, if_pos he, hquot, addZeros_eq]

/-- A code of the other shape stands for a multiple of the ninth power of ten. -/
lemma expand_nine {n : ℕ} (hn : 0 < n) : expand (1 + (n - 1) * 10 + 9) = n * 10 ^ 9 := by
  have hdigit : (1 + (n - 1) * 10 + 9 - 1) % 10 = 9 := by omega
  have hrest : (1 + (n - 1) * 10 + 9 - 1) / 10 + 1 = n := by omega
  rw [expand, if_neg (by omega)]
  dsimp only
  rw [hdigit, if_neg (lt_irrefl 9), hrest, addZeros_eq]

/-- The code of an amount stands for that amount. -/
lemma expand_compress (amount : UInt64) : expand (compress amount) = amount.toNat := by
  rw [compress]
  split
  next h => exact h.symm
  next h =>
    have hmul := stripZeros_mul_pow 9 amount.toNat
    have hpos := stripZeros_fst_pos 9 (Nat.pos_of_ne_zero h)
    have hle := stripZeros_snd_le 9 amount.toNat
    dsimp only
    split
    next hlt => rw [expand_of_lt hlt (stripZeros_fst_mod_ne_zero hlt), hmul]
    next hlt =>
      have he : (stripZeros 9 amount.toNat).2 = 9 := by omega
      rw [he] at hmul
      rw [expand_nine hpos, hmul]

/-- The code of an amount gives the amount back. -/
@[simp] theorem decompress_compress (amount : UInt64) :
    decompress (compress amount) = .ok amount := by
  rw [decompress, expand_compress, if_pos amount.toNat_lt_size, UInt64.ofNat_toNat]

/-- A code is at most ten times its amount. -/
lemma compress_le (amount : UInt64) : compress amount ≤ 10 * amount.toNat := by
  rw [compress]
  split
  next h => exact Nat.zero_le _
  next h =>
    have hpos := stripZeros_fst_pos 9 (Nat.pos_of_ne_zero h)
    have hle : (stripZeros 9 amount.toNat).1 ≤ amount.toNat := by
      calc (stripZeros 9 amount.toNat).1
          ≤ (stripZeros 9 amount.toNat).1 * 10 ^ (stripZeros 9 amount.toNat).2 :=
            Nat.le_mul_of_pos_right _ (Nat.pow_pos (by omega))
        _ = amount.toNat := stripZeros_mul_pow 9 amount.toNat
    dsimp only
    split <;> omega

end CoinLedger.Amount
