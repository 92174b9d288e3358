import Mathlib
import CoinLedger.Proofs.Amount.Word
import CoinLedger.Proofs.Vlq.Buffer

/-!
# How wide amount codes are

Round amounts have small codes, so codes are not in the order of their amounts.  But an amount with no
factor of ten has the code that is ten times the amount less its last digit, and every other amount has a
smaller one (`compress_add_nine_le`).  So the largest amount has the largest code, which takes 68 bits and
ten bytes.

`compressWrapping` takes the steps to a code in words of `w` bits and lets them wrap.  Only sums, differences
and products can, so what comes out is the code modulo `2 ^ w` (`compressWrapping_eq`): the code itself
wherever it fits the word, whatever happens on the way there.
-/

namespace CoinLedger.Amount

/-! ## The largest code -/

/-- The code of an amount is no larger than if its factors of ten were left in. -/
lemma compress_add_nine_le {amount : UInt64} (h : amount.toNat ≠ 0) :
    compress amount + 9 ≤ 10 * (amount.toNat - amount.toNat / 10) := by
  have hmul := stripZeros_mul_pow 9 amount.toNat
  have hpos := stripZeros_fst_pos 9 (Nat.pos_of_ne_zero h)
  have hdigit : (stripZeros 9 amount.toNat).2 < 9 → (stripZeros 9 amount.toNat).1 % 10 ≠ 0 :=
    stripZeros_fst_mod_ne_zero
  rw [compress, if_neg h]
  dsimp only
  rcases Nat.eq_zero_or_pos (stripZeros 9 amount.toNat).2 with hnone | hsome
  · rw [hnone, pow_zero, mul_one] at hmul
    rw [hnone] at hdigit ⊢
    rw [hmul] at hdigit ⊢
    rw [if_pos (by omega)]
    omega
  · -- with a factor of ten taken out, even ten times what is left is no larger than the amount
    have hten : (stripZeros 9 amount.toNat).1 * 10 ≤ amount.toNat := by
      calc (stripZeros 9 amount.toNat).1 * 10
          ≤ (stripZeros 9 amount.toNat).1 * 10 ^ (stripZeros 9 amount.toNat).2 :=
            Nat.mul_le_mul_left _ (Nat.le_self_pow hsome.ne' 10)
        _ = amount.toNat := hmul
    split <;> omega

/-- The code of the largest amount. -/
lemma compress_largest : compress (UInt64.ofNat (2 ^ 64 - 1)) = 166020696663385964531 := by decide

/-- The largest amount has the largest code. -/
lemma compress_le_compress_largest (amount : UInt64) :
    compress amount ≤ compress (UInt64.ofNat (2 ^ 64 - 1)) := by
  have hword : amount.toNat < 2 ^ 64 := amount.toNat_lt
  rw [compress_largest]
  by_cases h : amount.toNat = 0
  · rw [compress, if_pos h]
    exact Nat.zero_le _
  · have hle := compress_add_nine_le h
    omega

/-! ## Codes in words that wrap -/

variable {w : ℕ}

/-- The code of a quotient `n` behind `e` factors of ten, in words that wrap. -/
def codeWrapping (n : BitVec w) (e : ℕ) : BitVec w :=
  if e < 9 then 1#w + (n / 10#w * 9#w + n % 10#w - 1#w) * 10#w + BitVec.ofNat w e
  else 1#w + (n - 1#w) * 10#w + 9#w

/-- The code of an amount, computed in words of `w` bits that wrap. -/
def compressWrapping (w : ℕ) (amount : UInt64) : BitVec w :=
  if amount = 0 then 0#w
  else
    let (n, e) := stripZerosWord 9 (amount.toBitVec.setWidth w)
    codeWrapping n e

/-- Whatever wraps on the way, the result is the code in the bits that there are. -/
lemma codeWrapping_eq (hw : 4 ≤ w) {n : BitVec w} {e : ℕ} (hpos : 0 < n.toNat)
    (hdigit : e < 9 → n.toNat % 10 ≠ 0) :
    codeWrapping n e = BitVec.ofNat w (if e < 9 then
      1 + (n.toNat / 10 * 9 + n.toNat % 10 - 1) * 10 + e else 1 + (n.toNat - 1) * 10 + 9) := by
  have hone : 1 < 2 ^ w := Nat.one_lt_two_pow (by omega)
  have hten : (10#w).toNat = 10 := Word.toNat_ofNat_of_le_ten hw le_rfl
  have hback : ∀ x : BitVec w, x = BitVec.ofNat w x.toNat := fun x => by
    rw [BitVec.ofNat_toNat, BitVec.setWidth_eq]
  rw [codeWrapping]
  split
  next hlt =>
    have hlast := hdigit hlt
    have hquot : n / 10#w = BitVec.ofNat w (n.toNat / 10) := by
      rw [hback (n / 10#w), BitVec.toNat_udiv, hten]
    have hrem : n % 10#w = BitVec.ofNat w (n.toNat % 10) := by
      rw [hback (n % 10#w), BitVec.toNat_umod, hten]
    rw [hquot, hrem, ← BitVec.ofNat_mul, ← BitVec.ofNat_add,
      BitVec.ofNat_sub_ofNat_of_le _ _ hone (by omega), ← BitVec.ofNat_mul, ← BitVec.ofNat_add,
      ← BitVec.ofNat_add]
  next =>
    have hpred : n - 1#w = BitVec.ofNat w (n.toNat - 1) := by
      rw [← BitVec.ofNat_sub_ofNat_of_le _ _ hone hpos, ← hback n]
    rw [hpred, ← BitVec.ofNat_mul, ← BitVec.ofNat_add, ← BitVec.ofNat_add]

/-- In words that hold every amount, wrapping steps lead to the code modulo the size of the word. -/
lemma compressWrapping_eq (hw : 64 ≤ w) (amount : UInt64) :
    compressWrapping w amount = BitVec.ofNat w (compress amount) := by
  have hamount : (amount.toBitVec.setWidth w).toNat = amount.toNat := BitVec.toNat_setWidth_of_le hw
  have hzero : amount = 0 ↔ amount.toNat = 0 := UInt64.toNat_inj.symm
  rw [compress, compressWrapping]
  by_cases h : amount.toNat = 0
  · rw [if_pos h, if_pos (hzero.mpr h)]
  · have hpos := stripZeros_fst_pos 9 (Nat.pos_of_ne_zero h)
    have hdigit : (stripZeros 9 amount.toNat).2 < 9 → (stripZeros 9 amount.toNat).1 % 10 ≠ 0 :=
      stripZeros_fst_mod_ne_zero
    have hstrip := toNat_stripZerosWord (by omega) 9 (amount.toBitVec.setWidth w)
    rw [hamount] at hstrip
    rw [← hstrip] at hpos hdigit
    rw [if_neg h, if_neg (fun hword => h (hzero.mp hword)), ← hstrip]
    exact codeWrapping_eq (by omega) hpos hdigit

lemma toNat_compressWrapping (hw : 64 ≤ w) {amount : UInt64} (h : compress amount < 2 ^ w) :
    (compressWrapping w amount).toNat = compress amount := by
  rw [compressWrapping_eq hw, Word.toNat_ofNat_of_lt h]

/-- No code is larger than that of the largest amount, which has 68 bits, so every code is written in at most
ten bytes; in words of 128 bits it is computed exactly.  Where it has 64 bits, the same steps in words of 64
bits that wrap lead to the same code, and it is written in the same bytes. -/
theorem codes_bounded_and_width_free (amount : UInt64) :
    compress amount ≤ compress (UInt64.ofNat (2 ^ 64 - 1)) ∧
    compress (UInt64.ofNat (2 ^ 64 - 1)) < 2 ^ 68 ∧
    (Vlq.encode (compress amount)).length ≤ 10 ∧
    ((compressWrapping 128 amount).toNat = compress amount ∧
      Vlq.encodeWord (compressWrapping 128 amount) = Vlq.encode (compress amount)) ∧
    (compress amount < 2 ^ 64 →
      (compressWrapping 64 amount).toNat = compress amount ∧
      Vlq.encodeWord (compressWrapping 64 amount) = Vlq.encode (compress amount) ∧
      ∀ out, Vlq.append 64 out (compressWrapping 64 amount).toNat =
        Vlq.append 128 out (compress amount)) := by
  have hlargest : compress (UInt64.ofNat (2 ^ 64 - 1)) < 2 ^ 68 := by
    rw [compress_largest]
    omega
  have hle := compress_le_compress_largest amount
  have hcode : (compressWrapping 128 amount).toNat = compress amount :=
    toNat_compressWrapping (by omega) (by omega)
  refine ⟨hle, hlargest, ?_, ⟨hcode, ?_⟩, ?_⟩
  · rw [Vlq.length_encode]
    exact Vlq.size_le_of_lt_pow (k := 9) (by omega)
  · rw [Vlq.encodeWord_eq (by omega), hcode]
  · intro hword
    have hsame : (compressWrapping 64 amount).toNat = compress amount :=
      toNat_compressWrapping le_rfl hword
    refine ⟨hsame, by rw [Vlq.encodeWord_eq (by omega), hsame], ?_⟩
    intro out
    rw [hsame, Vlq.append_eq (by omega) hword, Vlq.append_eq (by omega) (by omega)]

/-- The last amount without a factor of ten whose code has 64 bits gets it from steps that wrap, in ten bytes;
the next amount gets another number. -/
theorem codes_bounded_and_width_free_lastOfWord :
    compress 2049638230412172402 = 2 ^ 64 - 5 ∧
    (compressWrapping 64 2049638230412172402).toNat = 2 ^ 64 - 5 ∧
    Vlq.encodeWord (compressWrapping 64 2049638230412172402) =
      [0x80, 0xFE, 0xFE, 0xFE, 0xFE, 0xFE, 0xFE, 0xFE, 0xFE, 0x7B] ∧
    compress 2049638230412172403 = 2 ^ 64 + 5 ∧
    (compressWrapping 64 2049638230412172403).toNat = 5 := by
  have hcode : compress 2049638230412172402 = 2 ^ 64 - 5 := by decide
  have hnext : compress 2049638230412172403 = 2 ^ 64 + 5 := by decide
  have hencode : Vlq.encode (2 ^ 64 - 5) =
      [0x80, 0xFE, 0xFE, 0xFE, 0xFE, 0xFE, 0xFE, 0xFE, 0xFE, 0x7B] := by cbv
  obtain ⟨-, -, -, -, hword⟩ := codes_bounded_and_width_free 2049638230412172402
  obtain ⟨hsame, hbytes, -⟩ := hword (by rw [hcode]; decide)
  rw [hcode] at hsame hbytes
  refine ⟨hcode, hsame, hbytes.trans hencode, hnext, ?_⟩
  rw [compressWrapping_eq le_rfl, hnext]
  decide

end CoinLedger.Amount
