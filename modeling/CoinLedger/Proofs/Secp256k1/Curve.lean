import Mathlib
import CoinLedger.Proofs.Secp256k1.Prime

/-!
# Points from their first coordinates

`lift?_eq_some_iff`: the search for a point with a given `x` and a given parity of `y` finds the
point with these properties, if the curve has one, and there is at most one.

Both directions come from the field: a square has a root that the search finds (`sqrt?_of_square`),
and two roots of one square are equal or add up to the modulus
(`eq_or_add_eq_of_mul_self_mod_eq`), which is odd, so their parities differ.

`OnCurve` is the equation in the field itself, and `isPoint` decides it.

No point has the second coordinate 0, as -7 is no cube (`OnCurve.ne_zero`), so the points with one `x`
come in pairs of either parity (`OnCurve.exists_parity`).
-/

namespace CoinLedger.Secp256k1

/-! ## Square roots -/

lemma p_mod_two : p % 2 = 1 := by decide

/-- Twice the exponent by which roots are found is one more than a multiple of the order. -/
lemma rootExponent : 2 * (2 * ((p + 1) / 4)) = p + 1 := by decide

/-- The root that is found is a residue whose square is the number. -/
lemma sqrt?_sound {a y : ℕ} (h : sqrt? a = some y) : y < p ∧ y * y % p = a % p := by
  rw [sqrt?] at h
  split at h
  next hroot =>
    obtain rfl := Option.some.inj h
    refine ⟨?_, hroot⟩
    rw [power_eq (by decide)]
    exact Nat.mod_lt _ prime_p.pos
  next hroot => cases h

/-- The candidate for a root of a square is one. -/
lemma candidate_mul_self (z : ZMod p) :
    (z * z) ^ ((p + 1) / 4) * (z * z) ^ ((p + 1) / 4) = z * z := by
  calc (z * z) ^ ((p + 1) / 4) * (z * z) ^ ((p + 1) / 4)
      = z ^ (2 * (2 * ((p + 1) / 4))) := by
        rw [← sq, ← sq, ← pow_mul, ← pow_mul]
        congr 1
    _ = z ^ p * z := by rw [rootExponent, pow_succ]
    _ = z * z := by rw [ZMod.pow_card]

/-- A root is found for every square. -/
lemma sqrt?_of_square {a z : ℕ} (h : z * z % p = a % p) : ∃ y, sqrt? a = some y := by
  have hcast : ((a % p : ℕ) : ZMod p) = (z : ZMod p) * z := by
    rw [← h, ZMod.natCast_mod, Nat.cast_mul]
  have hroot : power 256 (a % p) ((p + 1) / 4) * power 256 (a % p) ((p + 1) / 4) % p = a % p := by
    rw [power_eq (by decide), ← Nat.mul_mod, ← Nat.mod_mod a p,
      ← ZMod.natCast_eq_natCast_iff', Nat.mod_mod, Nat.cast_mul, Nat.cast_pow, hcast]
    exact candidate_mul_self z
  refine ⟨power 256 (a % p) ((p + 1) / 4), ?_⟩
  rw [sqrt?]
  exact if_pos hroot

/-- Two roots of one square are equal or add up to the modulus. -/
lemma eq_or_add_eq_of_mul_self_mod_eq {r y : ℕ} (hr : r < p) (hy : y < p)
    (h : r * r % p = y * y % p) : r = y ∨ r + y = p := by
  have hsq : (r : ZMod p) * r = y * y := by
    rw [← Nat.cast_mul, ← Nat.cast_mul, ZMod.natCast_eq_natCast_iff', h]
  rcases mul_self_eq_mul_self_iff.mp hsq with heq | hneg
  · left
    rwa [ZMod.natCast_eq_natCast_iff', Nat.mod_eq_of_lt hr, Nat.mod_eq_of_lt hy] at heq
  · have hzero : ((r + y : ℕ) : ZMod p) = 0 := by
      rw [Nat.cast_add, hneg, neg_add_cancel]
    obtain ⟨k, hk⟩ := (ZMod.natCast_eq_zero_iff _ _).mp hzero
    have hbound : k < 2 := by
      by_contra hge
      have hle : p * 2 ≤ p * k := Nat.mul_le_mul_left p (by omega)
      omega
    interval_cases k <;> omega

/-! ## Points -/

/-- Two residues below `p` are the coordinates of a point: `y ^ 2 = x ^ 3 + 7` in the field. -/
def OnCurve (x y : ℕ) : Prop := x < p ∧ y < p ∧ (y : ZMod p) ^ 2 = (x : ZMod p) ^ 3 + 7

/-- The equation of the curve, as it is tested on residues. -/
lemma onCurve_iff {x y : ℕ} : OnCurve x y ↔ x < p ∧ y < p ∧ y * y % p = cubic x := by
  have hequation : y * y % p = cubic x ↔ (y : ZMod p) ^ 2 = (x : ZMod p) ^ 3 + 7 := by
    rw [cubic, ← ZMod.natCast_eq_natCast_iff']
    push_cast
    rw [sq, pow_three']
  rw [hequation, OnCurve]

/-- The test of the equation decides whether a point is on the curve. -/
theorem isPoint_iff_onCurve {x y : ℕ} : isPoint x y = true ↔ OnCurve x y := by
  rw [onCurve_iff]
  simp only [isPoint, Bool.and_eq_true, decide_eq_true_eq, beq_iff_eq, and_assoc]

lemma cubic_mod (x : ℕ) : cubic x % p = cubic x := Nat.mod_mod _ _

/-- The point on the other side of the axis. -/
lemma sub_mul_self_mod {r : ℕ} (hr : r ≤ p) : (p - r) * (p - r) % p = r * r % p := by
  rw [← ZMod.natCast_eq_natCast_iff', Nat.cast_mul, Nat.cast_mul, Nat.cast_sub hr,
    ZMod.natCast_self, zero_sub, neg_mul_neg]

/-- The two points with one `x` differ in the parity of `y`, since the modulus is odd. -/
lemma decide_odd_of_add_eq {r y : ℕ} (h : r + y = p) :
    decide (r % 2 = 1) = !decide (y % 2 = 1) := by
  have hodd : p % 2 = 1 := p_mod_two
  rw [← decide_not, decide_eq_decide]
  omega

/-- The search finds the point with a given `x` and a given parity of `y`, if there is one. -/
theorem lift?_eq_some_iff {x y : ℕ} {odd : Bool} :
    lift? x odd = some y ↔ OnCurve x y ∧ decide (y % 2 = 1) = odd := by
  rw [onCurve_iff]
  constructor
  · intro h
    rw [lift?] at h
    split at h
    next hx =>
      cases hroot : sqrt? (cubic x) with
      | none =>
        rw [hroot] at h
        cases h
      | some r =>
        obtain ⟨hr, hsq⟩ := sqrt?_sound hroot
        rw [cubic_mod] at hsq
        simp only [hroot] at h
        split at h
        next hparity =>
          cases h
          exact ⟨⟨hx, hr, hsq⟩, hparity⟩
        next hparity =>
          -- the root has the other parity, so its negative is wanted; 0 is its own negative
          split at h
          next => cases h
          next hzero =>
            cases h
            refine ⟨⟨hx, by omega, ?_⟩, ?_⟩
            · rw [sub_mul_self_mod hr.le, hsq]
            · have hother := decide_odd_of_add_eq (Nat.sub_add_cancel hr.le)
              rw [hother, Bool.not_eq]
              exact hparity
    next hx => cases h
  · rintro ⟨⟨hx, hy, hsq⟩, hparity⟩
    obtain ⟨r, hroot⟩ := sqrt?_of_square (a := cubic x) (hsq.trans (cubic_mod x).symm)
    obtain ⟨hr, hrsq⟩ := sqrt?_sound hroot
    rw [cubic_mod, ← hsq] at hrsq
    rw [lift?, if_pos hx]
    simp only [hroot]
    rcases eq_or_add_eq_of_mul_self_mod_eq hr hy hrsq with rfl | hsum
    · rw [if_pos hparity]
    · have hother := decide_odd_of_add_eq hsum
      have hsub : p - r = y := by omega
      rw [hparity] at hother
      rw [hother, if_neg (Bool.not_ne_self odd), if_neg (by omega), hsub]

/-- A point is determined by its first coordinate and the parity of the second one. -/
theorem OnCurve.eq_of_mod_two {x y z : ℕ} (hy : OnCurve x y) (hz : OnCurve x z)
    (h : y % 2 = z % 2) : y = z := by
  have hlift := lift?_eq_some_iff.mpr ⟨hy, rfl⟩
  rw [h, lift?_eq_some_iff.mpr ⟨hz, rfl⟩] at hlift
  exact (Option.some.inj hlift).symm

/-! ## Both points with one coordinate -/

/-- No cube is -7: a cube other than 0 has the power 1 at a third of the order of the field, and 7 has
not. -/
lemma pow_three_ne_neg_seven (x : ZMod p) : x ^ 3 ≠ -7 := by
  intro h
  have hthird : 3 * ((p - 1) / 3) = p - 1 := by decide
  have heven : Even ((p - 1) / 3) := by decide
  have hseven : ((7 : ℕ) : ZMod p) ^ ((p - 1) / 3) ≠ 1 := by
    rw [← Nat.cast_pow, Ne, natCast_eq_one_iff (by decide), ← power_eq (by decide : _ < 2 ^ 256)]
    decide +kernel
  have hx : x ≠ 0 := by
    rintro rfl
    have hzero : ((7 : ℕ) : ZMod p) = 0 := by
      rw [Nat.cast_ofNat, ← neg_eq_zero, ← h, zero_pow (by decide)]
    rw [ZMod.natCast_eq_zero_iff] at hzero
    exact absurd hzero (by decide)
  refine hseven ?_
  calc ((7 : ℕ) : ZMod p) ^ ((p - 1) / 3) = (-7) ^ ((p - 1) / 3) := (heven.neg_pow 7).symm
    _ = x ^ (p - 1) := by rw [← h, ← pow_mul, hthird]
    _ = 1 := ZMod.pow_card_sub_one_eq_one hx

lemma OnCurve.ne_zero {x y : ℕ} (h : OnCurve x y) : y ≠ 0 := by
  rintro rfl
  obtain ⟨-, -, hequation⟩ := h
  rw [Nat.cast_zero, zero_pow two_ne_zero] at hequation
  exact pow_three_ne_neg_seven x (eq_neg_of_add_eq_zero_left hequation.symm)

/-- With a point there is one with the same first coordinate for either parity of the second one. -/
lemma OnCurve.exists_parity {x y : ℕ} (h : OnCurve x y) (odd : Bool) :
    ∃ z, OnCurve x z ∧ decide (z % 2 = 1) = odd := by
  by_cases hparity : decide (y % 2 = 1) = odd
  · exact ⟨y, h, hparity⟩
  · -- the point on the other side of the axis has the other parity
    have hpos := h.ne_zero
    obtain ⟨hx, hy, hsq⟩ := onCurve_iff.mp h
    refine ⟨p - y, onCurve_iff.mpr ⟨hx, by omega, ?_⟩, ?_⟩
    · rw [sub_mul_self_mod hy.le, hsq]
    · rw [decide_odd_of_add_eq (Nat.sub_add_cancel hy.le), Bool.not_eq]
      exact hparity

end CoinLedger.Secp256k1
