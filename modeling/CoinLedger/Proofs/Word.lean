import Mathlib

/-!
# Arithmetic in words that must not wrap

Sums, differences and products of words of `w` bits that are given only where they do not wrap.  A
computation made of these operations that gives a result has wrapped nowhere.
-/

namespace CoinLedger.Word

variable {w : ℕ} {x y : BitVec w}

/-- The sum of two words, unless it wraps. -/
def checkedAdd (x y : BitVec w) : Option (BitVec w) :=
  if x.uaddOverflow y then none else some (x + y)

/-- The difference of two words, unless it wraps. -/
def checkedSub (x y : BitVec w) : Option (BitVec w) :=
  if x.usubOverflow y then none else some (x - y)

/-- The product of two words, unless it wraps. -/
def checkedMul (x y : BitVec w) : Option (BitVec w) :=
  if x.umulOverflow y then none else some (x * y)

lemma exists_checkedAdd {a b : ℕ} (hx : x.toNat = a) (hy : y.toNat = b) (h : a + b < 2 ^ w) :
    ∃ z, checkedAdd x y = some z ∧ z.toNat = a + b := by
  subst hx hy
  have hflag : ¬ x.uaddOverflow y = true := by
    simpa [BitVec.uaddOverflow] using h
  exact ⟨x + y, if_neg hflag, BitVec.toNat_add_of_not_uaddOverflow hflag⟩

lemma exists_checkedSub {a b : ℕ} (hx : x.toNat = a) (hy : y.toNat = b) (h : b ≤ a) :
    ∃ z, checkedSub x y = some z ∧ z.toNat = a - b := by
  subst hx hy
  have hflag : ¬ x.usubOverflow y = true := by
    simpa [BitVec.usubOverflow] using h
  exact ⟨x - y, if_neg hflag, BitVec.toNat_sub_of_not_usubOverflow hflag⟩

lemma exists_checkedMul {a b : ℕ} (hx : x.toNat = a) (hy : y.toNat = b) (h : a * b < 2 ^ w) :
    ∃ z, checkedMul x y = some z ∧ z.toNat = a * b := by
  subst hx hy
  have hflag : ¬ x.umulOverflow y = true := by
    simpa [BitVec.umulOverflow] using h
  exact ⟨x * y, if_neg hflag, BitVec.toNat_mul_of_not_umulOverflow hflag⟩

/-- A word holds every number that fits. -/
lemma toNat_ofNat_of_lt {n : ℕ} (h : n < 2 ^ w) : (BitVec.ofNat w n).toNat = n := by
  rw [BitVec.toNat_ofNat, Nat.mod_eq_of_lt h]

/-- A sum of numbers is taken in words if it fits. -/
lemma checkedAdd_ofNat {a b : ℕ} (h : a + b < 2 ^ w) :
    checkedAdd (BitVec.ofNat w a) (BitVec.ofNat w b) = some (BitVec.ofNat w (a + b)) := by
  obtain ⟨z, hz, hsum⟩ := exists_checkedAdd (toNat_ofNat_of_lt (by omega))
    (toNat_ofNat_of_lt (by omega)) h
  rw [hz, ← hsum, BitVec.ofNat_toNat, BitVec.setWidth_eq]

/-- A difference of numbers is taken in words if it is one. -/
lemma checkedSub_ofNat {a b : ℕ} (ha : a < 2 ^ w) (h : b ≤ a) :
    checkedSub (BitVec.ofNat w a) (BitVec.ofNat w b) = some (BitVec.ofNat w (a - b)) := by
  obtain ⟨z, hz, hdifference⟩ := exists_checkedSub (toNat_ofNat_of_lt ha)
    (toNat_ofNat_of_lt (h.trans_lt ha)) h
  rw [hz, ← hdifference, BitVec.ofNat_toNat, BitVec.setWidth_eq]

/-- Digits and the base ten fit every word of four bits or more. -/
lemma toNat_ofNat_of_le_ten {k : ℕ} (hw : 4 ≤ w) (hk : k ≤ 10) : (BitVec.ofNat w k).toNat = k := by
  have hpow : 2 ^ 4 ≤ 2 ^ w := Nat.pow_le_pow_right (by omega) hw
  exact toNat_ofNat_of_lt (by omega)

end CoinLedger.Word
