import Mathlib
import CoinLedger.Proofs.PublicKey

/-!
# Which short keys can be expanded

A short key has a full form exactly if its first byte is 2 or 3 and its `x` belongs to a point of the
curve (`exists_expand_iff`), and it is valid exactly then (`isValid_short_iff_abscissa`).  Which of the two
bytes it is does not matter, since a point and its negative have the same `x` and `y` of either parity.

`expand_iff_isValid_and_lossless` adds what is found: the same `x`, a `y` of the parity that was asked for,
and for a full key that was shortened the key itself.
-/

namespace CoinLedger.PublicKey

open Secp256k1 (OnCurve)

/-- The bytes that stand for a parity. -/
lemma exists_parity?_iff {lead : UInt8} : (∃ odd, parity? lead = some odd) ↔ lead = 2 ∨ lead = 3 := by
  rw [parity?]
  by_cases htwo : lead = 2
  · rw [if_pos htwo]
    exact iff_of_true ⟨false, rfl⟩ (Or.inl htwo)
  · rw [if_neg htwo, or_iff_right htwo]
    by_cases hthree : lead = 3
    · rw [if_pos hthree]
      exact iff_of_true ⟨true, rfl⟩ hthree
    · rw [if_neg hthree]
      refine iff_of_false ?_ hthree
      rintro ⟨odd, hnone⟩
      cases hnone

/-- If there is a point with a given `x`, there is one with the parity for which the first byte of a key
stands. -/
lemma exists_point_iff {lead : UInt8} {x : ℕ} :
    (∃ y, OnCurve x y ∧ lead = UInt8.ofNat (2 + y % 2)) ↔
      (lead = 2 ∨ lead = 3) ∧ ∃ y, OnCurve x y := by
  constructor
  · rintro ⟨y, hpoint, rfl⟩
    exact ⟨exists_parity?_iff.mp ⟨_, parity?_ofNat y⟩, y, hpoint⟩
  · rintro ⟨hlead, y, hpoint⟩
    obtain ⟨odd, hodd⟩ := exists_parity?_iff.mpr hlead
    obtain ⟨z, hz, hparity⟩ := hpoint.exists_parity odd
    exact ⟨z, hz, eq_of_parity?_eq hodd (by rw [parity?_ofNat, hparity])⟩

/-- A short key has a full form exactly if its `x` belongs to a point. -/
lemma exists_expand_iff {lead : UInt8} {x : Bytes} :
    (∃ key, expand lead x = .ok key) ↔ (lead = 2 ∨ lead = 3) ∧ ∃ y, OnCurve (toNat x) y := by
  rw [← exists_point_iff]
  constructor
  · rintro ⟨key, hkey⟩
    obtain ⟨y, -, hpoint, hlead, -⟩ := expand_eq_ok_iff.mp hkey
    exact ⟨toNat y, hpoint, hlead⟩
  · rintro ⟨y, hpoint, rfl⟩
    have hbytes : toNat (ofNat 32 y) = y := toNat_ofNat_of_lt (hpoint.2.1.trans (by decide))
    have hkey := expand_of_onCurve (x := x) (length_ofNat 32 y) (by rwa [hbytes])
    rw [hbytes] at hkey
    exact ⟨_, hkey⟩

/-- A short key is valid exactly if its `x` belongs to a point. -/
lemma isValid_short_iff_abscissa {lead : UInt8} {x : Bytes} (hx : x.length = 32) :
    isValid (lead :: x) = true ↔ (lead = 2 ∨ lead = 3) ∧ ∃ y, OnCurve (toNat x) y := by
  rw [isValid_short_iff hx, exists_point_iff]

/-- Exactly the valid keys of 33 bytes have a full form, which are those whose `x` belongs to a point.
The full form is valid, has the same `x`, and its `y` has the parity of the first byte.  A valid key of 65
bytes holds the coordinates of a point, and comes out of its `x` and the parity of its `y`. -/
theorem expand_iff_isValid_and_lossless :
    (∀ (lead : UInt8) (x : Bytes), x.length = 32 →
      ((∃ key, expand lead x = .ok key) ↔ isValid (lead :: x) = true) ∧
      (isValid (lead :: x) = true ↔ (lead = 2 ∨ lead = 3) ∧ ∃ y, OnCurve (toNat x) y) ∧
      ∀ key, expand lead x = .ok key → ∃ y, key = 4 :: (x ++ y) ∧ y.length = 32 ∧
        isValid key = true ∧ toNat y % 2 = lead.toNat % 2) ∧
    ∀ key, key.length = 65 → isValid key = true → ∃ x y, key = 4 :: (x ++ y) ∧ x.length = 32 ∧
      y.length = 32 ∧ OnCurve (toNat x) (toNat y) ∧
        expand (UInt8.ofNat (2 + toNat y % 2)) x = .ok key := by
  constructor
  · intro lead x hx
    refine ⟨?_, isValid_short_iff_abscissa hx, ?_⟩
    · rw [exists_expand_iff, isValid_short_iff_abscissa hx]
    · intro key hkey
      obtain ⟨y, hy, hpoint, rfl, rfl⟩ := expand_eq_ok_iff.mp hkey
      refine ⟨y, rfl, hy, (isValid_full_iff hx hy).mpr hpoint, ?_⟩
      rcases Nat.mod_two_eq_zero_or_one (toNat y) with h | h <;> rw [h] <;> rfl
  · intro key hlength hvalid
    obtain ⟨x, y, rfl, hx, hy, hpoint⟩ := exists_of_isValid_full hlength hvalid
    exact ⟨x, y, rfl, hx, hy, hpoint, expand_of_onCurve hy hpoint⟩

/-- The even `y` that belongs to the `x` 1. -/
def evenYOfOne : Bytes :=
  ofNat 32 0x4218F20AE6C646B363DB68605822FB14264CA8D2587FDD6FBC750D587E76A7EE

/-- The key with the `x` 1 and the even `y` is found again behind the byte 2, and a key with the same `x`
behind the byte 3; 5 belongs to no point, and `p + 1` is not taken for 1. -/
theorem expand_smallKeys :
    isValid (4 :: (ofNat 32 1 ++ evenYOfOne)) = true ∧
    expand 2 (ofNat 32 1) = .ok (4 :: (ofNat 32 1 ++ evenYOfOne)) ∧
    (∃ key, expand 3 (ofNat 32 1) = .ok key ∧ isValid key = true) ∧
    (¬ ∃ key, expand 2 (ofNat 32 5) = .ok key) ∧
    ¬ ∃ key, expand 2 (ofNat 32 (Secp256k1.p + 1)) = .ok key := by
  obtain ⟨hshort, hfull⟩ := expand_iff_isValid_and_lossless
  have hvalid : isValid (4 :: (ofNat 32 1 ++ evenYOfOne)) = true := by decide +kernel
  obtain ⟨x, y, hkey, hx, -, -, hback⟩ := hfull _ (by decide +kernel) hvalid
  obtain ⟨rfl, rfl⟩ := List.append_inj (List.cons.inj hkey).2 (by rw [hx, length_ofNat])
  have heven : toNat evenYOfOne % 2 = 0 := by decide +kernel
  rw [heven] at hback
  obtain ⟨hiff, -, hform⟩ := hshort 3 (ofNat 32 1) (length_ofNat 32 1)
  obtain ⟨key, hodd⟩ := hiff.mpr (by decide +kernel)
  obtain ⟨-, -, -, hodd', -⟩ := hform key hodd
  refine ⟨hvalid, hback, ⟨key, hodd, hodd'⟩, ?_, ?_⟩
  · rw [(hshort 2 _ (length_ofNat 32 5)).1]
    decide +kernel
  · rw [(hshort 2 _ (length_ofNat 32 (Secp256k1.p + 1))).1]
    decide +kernel

end CoinLedger.PublicKey
