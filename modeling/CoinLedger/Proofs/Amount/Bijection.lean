import Mathlib
import CoinLedger.Proofs.Amount

/-!
# Every code is the code of its amount

The converse of `decompress_compress`: a code that stands for an amount of 64 bits is the code of
that amount (`compress_of_expand_eq`), so `decompress` accepts the codes of amounts and nothing else
(`decompress_eq_ok_iff`).

A code other than 0 says how many factors of ten there are and what they multiply
(`exists_quotient_of_pos`), and from such a product the same factors are taken out again
(`stripZeros_mul_pow_self`).
-/

namespace CoinLedger.Amount

/-- Factors of ten are taken out of a product again, up to the limit, if none are left behind them
or the limit is reached. -/
lemma stripZeros_mul_pow_self {limit e n : ℕ} (he : e ≤ limit) (hn : e < limit → n % 10 ≠ 0) :
    stripZeros limit (n * 10 ^ e) = (n, e) := by
  induction limit generalizing e with
  | zero =>
    obtain rfl : e = 0 := Nat.le_zero.mp he
    rw [stripZeros, pow_zero, mul_one]
  | succ limit ih =>
    cases e with
    | zero =>
      have hdigit : n % 10 ≠ 0 := hn (Nat.succ_pos limit)
      rw [pow_zero, mul_one, stripZeros, if_neg hdigit]
    | succ e =>
      have hdigit : n * 10 ^ (e + 1) % 10 = 0 := by
        rw [pow_succ, ← mul_assoc, Nat.mul_mod_left]
      have hquot : n * 10 ^ (e + 1) / 10 = n * 10 ^ e := by
        rw [pow_succ, ← mul_assoc, Nat.mul_div_cancel _ (by omega)]
      have hrest : stripZeros limit (n * 10 ^ e) = (n, e) :=
        ih (Nat.le_of_succ_le_succ he) (fun h => hn (Nat.succ_lt_succ h))
      rw [stripZeros, if_pos hdigit, hquot, hrest]

/-- What a code other than 0 says: how many factors of ten there are, up to nine, and what they
multiply, which keeps a last digit unless there are nine. -/
lemma exists_quotient_of_pos {code : ℕ} (h : 0 < code) :
    ∃ n e, 0 < n ∧ e ≤ 9 ∧ (e < 9 → n % 10 ≠ 0) ∧ expand code = n * 10 ^ e ∧
      code = if e < 9 then 1 + (n / 10 * 9 + n % 10 - 1) * 10 + e else 1 + (n - 1) * 10 + 9 := by
  have he : (code - 1) % 10 ≤ 9 := by omega
  rw [expand, if_neg (by omega)]
  dsimp only
  rw [addZeros_eq]
  by_cases hlt : (code - 1) % 10 < 9
  · refine ⟨(code - 1) / 10 / 9 * 10 + ((code - 1) / 10 % 9 + 1), (code - 1) % 10, by omega, he,
      fun _ => by omega, ?_, ?_⟩
    · rw [if_pos hlt]
    · rw [if_pos hlt]
      omega
  · refine ⟨(code - 1) / 10 + 1, (code - 1) % 10, by omega, he, fun h => absurd h hlt, ?_, ?_⟩
    · rw [if_neg hlt]
    · rw [if_neg hlt]
      omega

/-- A code that stands for an amount is the code of that amount. -/
theorem compress_of_expand_eq {code : ℕ} {amount : UInt64} (h : expand code = amount.toNat) :
    compress amount = code := by
  rcases Nat.eq_zero_or_pos code with rfl | hpos
  · have hzero : amount.toNat = 0 := h.symm
    rw [compress, if_pos hzero]
  · obtain ⟨n, e, hn, he, hdigit, hexpand, hcode⟩ := exists_quotient_of_pos hpos
    have hne : n * 10 ^ e ≠ 0 := (Nat.mul_pos hn (Nat.pow_pos (by omega))).ne'
    have hstrip : stripZeros 9 (n * 10 ^ e) = (n, e) := stripZeros_mul_pow_self he hdigit
    rw [compress, ← h, hexpand, if_neg hne, hstrip]
    exact hcode.symm

/-- A code is accepted as an amount exactly if it is the code of that amount. -/
theorem decompress_eq_ok_iff {code : ℕ} {amount : UInt64} :
    decompress code = .ok amount ↔ code = compress amount := by
  constructor
  · intro h
    rw [decompress] at h
    split at h
    next hsize =>
      have hamount : expand code = amount.toNat := by
        rw [← Except.ok.inj h]
        exact (UInt64.toNat_ofNat_of_lt' hsize).symm
      exact (compress_of_expand_eq hamount).symm
    next => cases h
  · rintro rfl
    exact decompress_compress amount

/-- A code of no amount is refused as too large. -/
lemma decompress_of_forall_ne {code : ℕ} (h : ∀ amount, code ≠ compress amount) :
    decompress code = .error ⟨.amountTooLarge code, 0⟩ := by
  rw [decompress]
  split
  next hsize =>
    have hok : decompress code = .ok (UInt64.ofNat (expand code)) := by
      rw [decompress, if_pos hsize]
    exact absurd (decompress_eq_ok_iff.mp hok) (h _)
  next => rfl

end CoinLedger.Amount
