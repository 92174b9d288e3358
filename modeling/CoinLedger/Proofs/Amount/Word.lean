import Mathlib
import CoinLedger.Proofs.Amount.Bijection
import CoinLedger.Proofs.Word

/-!
# Amount codes in words

The two conversions carried out in words of `w` bits, step by step, with operations that give nothing
where they wrap.  `compressWord` gives the code of an amount wherever the code fits the word
(`exists_compressWord`), and `decompressWord` gives what `decompress` gives in words of at least 68
bits (`decompressWord_eq`): the factors of ten are multiplied in one by one, and no further once the
amount is too large.

`bijection_without_wrap` joins this, at 128 bits, with the correspondence of amounts and codes.
-/

namespace CoinLedger.Amount

open Word (checkedAdd checkedSub checkedMul exists_checkedAdd exists_checkedSub exists_checkedMul
  toNat_ofNat_of_le_ten)

variable {w : ℕ}

/-! ## From amounts to codes -/

/-- Takes up to `limit` factors of ten out of a word: the quotient and their number. -/
def stripZerosWord : ℕ → BitVec w → BitVec w × ℕ
  | 0, n => (n, 0)
  | limit + 1, n =>
    if n % 10#w = 0#w then
      let (quotient, e) := stripZerosWord limit (n / 10#w)
      (quotient, e + 1)
    else (n, 0)

/-- The code of a quotient `n` behind `e` factors of ten. -/
def codeWord (n : BitVec w) (e : ℕ) : Option (BitVec w) :=
  if e < 9 then do
    let tens ← checkedMul (n / 10#w) 9#w
    let successor ← checkedAdd tens (n % 10#w)
    let index ← checkedSub successor 1#w
    let shifted ← checkedMul index 10#w
    let code ← checkedAdd 1#w shifted
    checkedAdd code (BitVec.ofNat w e)
  else do
    let index ← checkedSub n 1#w
    let shifted ← checkedMul index 10#w
    let code ← checkedAdd 1#w shifted
    checkedAdd code 9#w

/-- The code of an amount, computed in words of `w` bits. -/
def compressWord (w : ℕ) (amount : UInt64) : Option (BitVec w) :=
  if amount = 0 then some 0#w
  else
    let (n, e) := stripZerosWord 9 (amount.toBitVec.setWidth w)
    codeWord n e

lemma toNat_stripZerosWord (hw : 4 ≤ w) (limit : ℕ) (n : BitVec w) :
    ((stripZerosWord limit n).1.toNat, (stripZerosWord limit n).2) = stripZeros limit n.toNat := by
  induction limit generalizing n with
  | zero => rfl
  | succ limit ih =>
    have hten : (10#w).toNat = 10 := toNat_ofNat_of_le_ten hw le_rfl
    have hdigit : n % 10#w = 0#w ↔ n.toNat % 10 = 0 := by
      rw [← BitVec.toNat_inj, BitVec.toNat_umod, hten, BitVec.toNat_zero]
    have hquot : (n / 10#w).toNat = n.toNat / 10 := by
      rw [BitVec.toNat_udiv, hten]
    have hrest := ih (n / 10#w)
    rw [hquot] at hrest
    rw [stripZerosWord, stripZeros]
    by_cases h : n.toNat % 10 = 0
    · rw [if_pos h, if_pos (hdigit.mpr h), ← hrest]
    · rw [if_neg h, if_neg (fun hword => h (hdigit.mp hword))]

/-- A code that fits the word is computed from its quotient without wrapping. -/
lemma exists_codeWord (hw : 4 ≤ w) {n : BitVec w} {e : ℕ} (hpos : 0 < n.toNat)
    (hdigit : e < 9 → n.toNat % 10 ≠ 0)
    (hcode : (if e < 9 then 1 + (n.toNat / 10 * 9 + n.toNat % 10 - 1) * 10 + e
      else 1 + (n.toNat - 1) * 10 + 9) < 2 ^ w) :
    ∃ code, codeWord n e = some code ∧
      code.toNat = if e < 9 then 1 + (n.toNat / 10 * 9 + n.toNat % 10 - 1) * 10 + e
        else 1 + (n.toNat - 1) * 10 + 9 := by
  have hone : (1#w).toNat = 1 := toNat_ofNat_of_le_ten hw (by omega)
  have hnine : (9#w).toNat = 9 := toNat_ofNat_of_le_ten hw (by omega)
  have hten : (10#w).toNat = 10 := toNat_ofNat_of_le_ten hw le_rfl
  rw [codeWord]
  by_cases hlt : e < 9
  · have hlast := hdigit hlt
    have he : (BitVec.ofNat w e).toNat = e := toNat_ofNat_of_le_ten hw (by omega)
    have hquot : (n / 10#w).toNat = n.toNat / 10 := by rw [BitVec.toNat_udiv, hten]
    have hrem : (n % 10#w).toNat = n.toNat % 10 := by rw [BitVec.toNat_umod, hten]
    rw [if_pos hlt] at hcode
    rw [if_pos hlt, if_pos hlt]
    obtain ⟨tens, htens, htensNat⟩ := exists_checkedMul hquot hnine (by omega)
    obtain ⟨successor, hsuccessor, hsuccessorNat⟩ := exists_checkedAdd htensNat hrem (by omega)
    obtain ⟨index, hindex, hindexNat⟩ := exists_checkedSub hsuccessorNat hone (by omega)
    obtain ⟨shifted, hshifted, hshiftedNat⟩ := exists_checkedMul hindexNat hten (by omega)
    obtain ⟨sum, hsum, hsumNat⟩ := exists_checkedAdd hone hshiftedNat (by omega)
    obtain ⟨code, hresult, hresultNat⟩ := exists_checkedAdd hsumNat he (by omega)
    refine ⟨code, ?_, hresultNat⟩
    simp only [htens, hsuccessor, hindex, hshifted, hsum, hresult, Option.bind_eq_bind,
      Option.bind_some]
  · rw [if_neg hlt] at hcode
    rw [if_neg hlt, if_neg hlt]
    obtain ⟨index, hindex, hindexNat⟩ := exists_checkedSub (x := n) rfl hone (by omega)
    obtain ⟨shifted, hshifted, hshiftedNat⟩ := exists_checkedMul hindexNat hten (by omega)
    obtain ⟨sum, hsum, hsumNat⟩ := exists_checkedAdd hone hshiftedNat (by omega)
    obtain ⟨code, hresult, hresultNat⟩ := exists_checkedAdd hsumNat hnine (by omega)
    refine ⟨code, ?_, hresultNat⟩
    simp only [hindex, hshifted, hsum, hresult, Option.bind_eq_bind, Option.bind_some]

/-- In words that hold the code of an amount, no step on the way to it wraps. -/
lemma exists_compressWord (hw : 64 ≤ w) {amount : UInt64} (hcode : compress amount < 2 ^ w) :
    ∃ code, compressWord w amount = some code ∧ code.toNat = compress amount := by
  have hfour : 4 ≤ w := by omega
  have hamount : (amount.toBitVec.setWidth w).toNat = amount.toNat :=
    BitVec.toNat_setWidth_of_le hw
  have hzero : amount = 0 ↔ amount.toNat = 0 := UInt64.toNat_inj.symm
  rw [compress] at hcode ⊢
  rw [compressWord]
  by_cases h : amount.toNat = 0
  · rw [if_pos h, if_pos (hzero.mpr h)]
    exact ⟨0#w, rfl, BitVec.toNat_zero⟩
  · have hpos := stripZeros_fst_pos 9 (Nat.pos_of_ne_zero h)
    have hdigit : (stripZeros 9 amount.toNat).2 < 9 → (stripZeros 9 amount.toNat).1 % 10 ≠ 0 :=
      stripZeros_fst_mod_ne_zero
    have hstrip := toNat_stripZerosWord hfour 9 (amount.toBitVec.setWidth w)
    rw [hamount] at hstrip
    rw [if_neg h, ← hstrip] at hcode
    rw [if_neg h, if_neg (fun hword => h (hzero.mp hword)), ← hstrip]
    rw [← hstrip] at hpos hdigit
    exact exists_codeWord hfour hpos hdigit hcode

/-! ## From codes to amounts -/

/-- Puts `e` factors of ten into a word, and no more than it takes to exceed every amount. -/
def addZerosWord : ℕ → BitVec w → Option (BitVec w)
  | 0, n => some n
  | e + 1, n =>
    if UInt64.size ≤ n.toNat then some n
    else do
      let product ← checkedMul n 10#w
      addZerosWord e product

/-- The quotient that a code holds behind the number `e` of its factors of ten. -/
def quotientWord (e : ℕ) (x : BitVec w) : Option (BitVec w) :=
  if e < 9 then do
    let digit ← checkedAdd (x % 9#w) 1#w
    let tens ← checkedMul (x / 9#w) 10#w
    checkedAdd tens digit
  else checkedAdd x 1#w

/-- The amount that a code stands for, computed in words of `w` bits. -/
def decompressWord (code : BitVec w) : Option (Except Error UInt64) :=
  if code = 0#w then some (.ok 0)
  else do
    let index ← checkedSub code 1#w
    let e := (index % 10#w).toNat
    let quotient ← quotientWord e (index / 10#w)
    let n ← addZerosWord e quotient
    if UInt64.size ≤ n.toNat then some (.error ⟨.amountTooLarge code.toNat, 0⟩)
    else some (.ok (UInt64.ofNat n.toNat))

/-- Multiplying factors of ten in gives the product if it is an amount, and a number larger than
every amount otherwise. -/
lemma exists_addZerosWord (hw : 68 ≤ w) (e : ℕ) (n : BitVec w) :
    ∃ r, addZerosWord e n = some r ∧
      (n.toNat * 10 ^ e < UInt64.size → r.toNat = n.toNat * 10 ^ e) ∧
      (UInt64.size ≤ n.toNat * 10 ^ e → UInt64.size ≤ r.toNat) := by
  induction e generalizing n with
  | zero =>
    have hone : n.toNat * 10 ^ 0 = n.toNat := by rw [pow_zero, mul_one]
    exact ⟨n, rfl, fun _ => hone.symm, fun h => hone ▸ h⟩
  | succ e ih =>
    rw [addZerosWord]
    by_cases h : UInt64.size ≤ n.toNat
    · have hle : n.toNat ≤ n.toNat * 10 ^ (e + 1) :=
        Nat.le_mul_of_pos_right _ (Nat.pow_pos (by omega))
      refine ⟨n, if_pos h, ?_, fun _ => h⟩
      intro hlt
      omega
    · have hten : (10#w).toNat = 10 := toNat_ofNat_of_le_ten (by omega) le_rfl
      have hpow : 2 ^ 68 ≤ 2 ^ w := Nat.pow_le_pow_right (by omega) hw
      have hsize : UInt64.size = 2 ^ 64 := rfl
      obtain ⟨product, hproduct, hproductNat⟩ := exists_checkedMul (x := n) rfl hten (by omega)
      have hpower : n.toNat * 10 ^ (e + 1) = product.toNat * 10 ^ e := by
        rw [hproductNat, pow_succ, mul_comm (10 ^ e), mul_assoc]
      obtain ⟨r, hr, hexact, hlarge⟩ := ih product
      rw [hpower]
      refine ⟨r, ?_, hexact, hlarge⟩
      rw [if_neg h, hproduct]
      exact hr

/-- The quotient of a code is computed without wrapping. -/
lemma exists_quotientWord (hw : 8 ≤ w) (e : ℕ) {x : BitVec w} (hx : x.toNat * 10 < 2 ^ w) :
    ∃ n, quotientWord e x = some n ∧
      n.toNat = if e < 9 then x.toNat / 9 * 10 + (x.toNat % 9 + 1) else x.toNat + 1 := by
  have hpow : 2 ^ 8 ≤ 2 ^ w := Nat.pow_le_pow_right (by omega) hw
  have hone : (1#w).toNat = 1 := toNat_ofNat_of_le_ten (by omega) (by omega)
  have hnine : (9#w).toNat = 9 := toNat_ofNat_of_le_ten (by omega) (by omega)
  have hten : (10#w).toNat = 10 := toNat_ofNat_of_le_ten (by omega) le_rfl
  have hquot : (x / 9#w).toNat = x.toNat / 9 := by rw [BitVec.toNat_udiv, hnine]
  have hrem : (x % 9#w).toNat = x.toNat % 9 := by rw [BitVec.toNat_umod, hnine]
  rw [quotientWord]
  by_cases hlt : e < 9
  · obtain ⟨digit, hdigit, hdigitNat⟩ := exists_checkedAdd hrem hone (by omega)
    obtain ⟨tens, htens, htensNat⟩ := exists_checkedMul hquot hten (by omega)
    obtain ⟨n, hn, hnNat⟩ := exists_checkedAdd htensNat hdigitNat (by omega)
    rw [if_pos hlt, if_pos hlt]
    refine ⟨n, ?_, hnNat⟩
    simp only [hdigit, htens, hn, Option.bind_eq_bind, Option.bind_some]
  · rw [if_neg hlt, if_neg hlt]
    exact exists_checkedAdd rfl hone (by omega)

/-- In words of at least 68 bits, no step from a code to its amount wraps, whatever the code. -/
theorem decompressWord_eq (hw : 68 ≤ w) (code : BitVec w) :
    decompressWord code = some (decompress code.toNat) := by
  have hone : (1#w).toNat = 1 := toNat_ofNat_of_le_ten (by omega) (by omega)
  have hten : (10#w).toNat = 10 := toNat_ofNat_of_le_ten (by omega) le_rfl
  have hzero : code = 0#w ↔ code.toNat = 0 := by
    rw [← BitVec.toNat_inj, BitVec.toNat_zero]
  rw [decompressWord, decompress, expand]
  by_cases h : code.toNat = 0
  · rw [if_pos (hzero.mpr h), if_pos h]
    rfl
  · rw [if_neg (fun hword => h (hzero.mp hword)), if_neg h]
    have hlt : code.toNat < 2 ^ w := code.isLt
    obtain ⟨index, hindex, hindexNat⟩ := exists_checkedSub rfl hone (Nat.pos_of_ne_zero h)
    have he : (index % 10#w).toNat = (code.toNat - 1) % 10 := by
      rw [BitVec.toNat_umod, hten, hindexNat]
    have hx : (index / 10#w).toNat = (code.toNat - 1) / 10 := by
      rw [BitVec.toNat_udiv, hten, hindexNat]
    obtain ⟨quotient, hquotient, hquotientNat⟩ :=
      exists_quotientWord (by omega) ((code.toNat - 1) % 10) (x := index / 10#w) (by omega)
    obtain ⟨n, hn, hexact, hlarge⟩ := exists_addZerosWord hw ((code.toNat - 1) % 10) quotient
    rw [hquotientNat, hx] at hexact hlarge
    simp only [hindex, he, hquotient, hn, Option.bind_eq_bind, Option.bind_some, addZeros_eq]
    split
    next hsize =>
      rw [if_neg]
      intro hfits
      rw [hexact hfits] at hsize
      omega
    next hsize =>
      have hfits := lt_of_not_ge fun hge => hsize (hlarge hge)
      rw [if_pos hfits, hexact hfits]

/-! ## Amounts and codes -/

/-- Amounts of 64 bits and the codes that are accepted correspond to each other, every other code is
refused as too large, and neither conversion wraps anywhere in words of 128 bits. -/
theorem bijection_without_wrap :
    (∀ code amount, decompress code = .ok amount ↔ code = compress amount) ∧
    (∀ code, (∀ amount, code ≠ compress amount) →
      ∃ e, decompress code = .error e ∧ e.code = .parseOverflow) ∧
    (∀ amount, ∃ code, compressWord 128 amount = some code ∧ code.toNat = compress amount) ∧
    ∀ code : BitVec 128, decompressWord code = some (decompress code.toNat) := by
  refine ⟨?_, ?_, ?_, ?_⟩
  · intro code amount
    exact decompress_eq_ok_iff
  · intro code h
    exact ⟨_, decompress_of_forall_ne h, rfl⟩
  · intro amount
    have hle : compress amount ≤ 10 * amount.toNat := compress_le amount
    have hword : amount.toNat < 2 ^ 64 := amount.toNat_lt
    exact exists_compressWord (by omega) (by omega)
  · intro code
    exact decompressWord_eq (by omega) code

/-- The largest code of 128 bits belongs to no amount. -/
theorem decompress_largest_code :
    (∀ amount, 2 ^ 128 - 1 ≠ compress amount) ∧
    ∃ e, decompress (2 ^ 128 - 1) = .error e ∧ e.code = .parseOverflow := by
  have hne : ∀ amount, 2 ^ 128 - 1 ≠ compress amount := by
    intro amount
    have hle : compress amount ≤ 10 * amount.toNat := compress_le amount
    have hword : amount.toNat < 2 ^ 64 := amount.toNat_lt
    omega
  exact ⟨hne, bijection_without_wrap.2.1 _ hne⟩

end CoinLedger.Amount
