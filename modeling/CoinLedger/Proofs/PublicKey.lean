import Mathlib
import CoinLedger.Proofs.Secp256k1.Curve
import CoinLedger.PublicKey

/-!
# A full key from its short form

`expand_of_onCurve`: the first coordinate of a point and the parity of the second one are enough to
write the full key again.  Coordinates are numbers in 32 bytes, and `ofNat_toNat` says that a
byte string of any length is the number it denotes, written in that many bytes.

`expand_eq_ok_iff` adds that nothing else is written for a short key.

`isValid_short_iff` and `isValid_full_iff` say which keys are valid, and `exists_of_isValid_short`
and `exists_of_isValid_full` take a valid key of either length apart.
-/

namespace CoinLedger.PublicKey

open Secp256k1 (OnCurve isPoint_iff_onCurve lift?_eq_some_iff)

/-! ## Coordinates -/

lemma toNat_append_singleton (data : Bytes) (b : UInt8) :
    toNat (data ++ [b]) = toNat data * 256 + b.toNat := by
  rw [toNat, List.foldl_append]
  rfl

/-- A byte string is the number that it denotes, written in as many bytes. -/
lemma ofNat_toNat (data : Bytes) : ofNat data.length (toNat data) = data := by
  induction data using List.reverseRecOn with
  | nil => rfl
  | append_singleton data b ih =>
    have hb : b.toNat < 256 := b.toNat_lt
    have hquot : (toNat data * 256 + b.toNat) / 256 = toNat data := by omega
    have hrem : (toNat data * 256 + b.toNat) % 256 = b.toNat := by omega
    rw [List.length_append, List.length_singleton, ofNat, toNat_append_singleton, hquot, hrem, ih,
      UInt8.ofNat_toNat]

lemma length_ofNat (count n : ℕ) : (ofNat count n).length = count := by
  induction count generalizing n with
  | zero => rfl
  | succ count ih => rw [ofNat, List.length_append, ih, List.length_singleton]

/-- A number that fits is found again in the bytes in which it is written. -/
lemma toNat_ofNat_of_lt {count n : ℕ} (h : n < 256 ^ count) : toNat (ofNat count n) = n := by
  induction count generalizing n with
  | zero =>
    rw [pow_zero] at h
    rw [Nat.lt_one_iff.mp h]
    rfl
  | succ count ih =>
    have hquot : n / 256 < 256 ^ count := by
      rw [pow_succ] at h
      omega
    have hbyte : (UInt8.ofNat (n % 256)).toNat = n % 256 :=
      UInt8.toNat_ofNat_of_lt' (Nat.mod_lt n (by decide))
    rw [ofNat, toNat_append_singleton, ih hquot, hbyte]
    omega

lemma toNat_mod_two (data : Bytes) : toNat data % 2 = (data.getLast?.getD 0).toNat % 2 := by
  induction data using List.reverseRecOn with
  | nil => rfl
  | append_singleton data b _ =>
    rw [toNat_append_singleton, List.getLast?_append_of_ne_nil _ (List.cons_ne_nil b [])]
    simp only [List.getLast?_singleton, Option.getD_some]
    omega

/-! ## Keys -/

/-- A parity has only one byte that stands for it. -/
lemma eq_of_parity?_eq {lead other : UInt8} {odd : Bool} (h : parity? lead = some odd)
    (hother : parity? other = some odd) : lead = other := by
  simp only [parity?] at h hother
  grind

/-- The first byte of a short key that stands for the parity of `y`. -/
lemma parity?_ofNat (y : ℕ) : parity? (UInt8.ofNat (2 + y % 2)) = some (decide (y % 2 = 1)) := by
  rcases Nat.mod_two_eq_zero_or_one y with h | h <;> rw [h] <;> rfl

/-- A valid short key is the `x` of a point behind the byte for the parity of its `y`. -/
lemma isValid_short_iff {lead : UInt8} {x : Bytes} (hx : x.length = 32) :
    isValid (lead :: x) = true ↔
      ∃ y, OnCurve (toNat x) y ∧ lead = UInt8.ofNat (2 + y % 2) := by
  simp only [isValid, hx, if_true]
  constructor
  · intro h
    cases hparity : parity? lead with
    | none =>
      rw [hparity] at h
      cases h
    | some odd =>
      rw [hparity] at h
      obtain ⟨y, hlift⟩ := Option.isSome_iff_exists.mp h
      obtain ⟨hpoint, rfl⟩ := lift?_eq_some_iff.mp hlift
      refine ⟨y, hpoint, ?_⟩
      exact eq_of_parity?_eq hparity (parity?_ofNat y)
  · rintro ⟨y, hpoint, rfl⟩
    have hlift := lift?_eq_some_iff.mpr ⟨hpoint, rfl⟩
    rw [parity?_ofNat]
    exact Option.isSome_iff_exists.mpr ⟨y, hlift⟩

/-- A valid full key holds the coordinates of a point. -/
lemma isValid_full_iff {x y : Bytes} (hx : x.length = 32) (hy : y.length = 32) :
    isValid (4 :: (x ++ y)) = true ↔ OnCurve (toNat x) (toNat y) := by
  have hlength : (x ++ y).length = 64 := by rw [List.length_append, hx, hy]
  have htake : (x ++ y).take 32 = x := List.take_left' hx
  have hdrop : (x ++ y).drop 32 = y := List.drop_left' hx
  rw [← isPoint_iff_onCurve]
  simp [isValid, hlength, htake, hdrop]

/-- A valid key of 33 bytes is made of a point. -/
lemma exists_of_isValid_short {key : Bytes} (hlength : key.length = 33)
    (hvalid : isValid key = true) :
    ∃ x y, key = UInt8.ofNat (2 + y % 2) :: x ∧ x.length = 32 ∧ OnCurve (toNat x) y := by
  cases key with
  | nil => cases hlength
  | cons lead x =>
    have hx : x.length = 32 := Nat.succ.inj hlength
    obtain ⟨y, hpoint, rfl⟩ := (isValid_short_iff hx).mp hvalid
    exact ⟨x, y, rfl, hx, hpoint⟩

/-- A valid key of 65 bytes is a 4 and the coordinates of a point. -/
lemma exists_of_isValid_full {key : Bytes} (hlength : key.length = 65)
    (hvalid : isValid key = true) :
    ∃ x y, key = 4 :: (x ++ y) ∧ x.length = 32 ∧ y.length = 32 ∧
      OnCurve (toNat x) (toNat y) := by
  cases key with
  | nil => cases hlength
  | cons lead coordinates =>
    have hc : coordinates.length = 64 := Nat.succ.inj hlength
    have hlead : lead = 4 := by
      simp only [isValid, hc, Nat.reduceEqDiff, if_false, if_true, Bool.and_eq_true, beq_iff_eq]
        at hvalid
      exact hvalid.1
    have hx : (coordinates.take 32).length = 32 := by
      rw [List.length_take, hc]
      rfl
    have hy : (coordinates.drop 32).length = 32 := by rw [List.length_drop, hc]
    rw [hlead, ← List.take_append_drop 32 coordinates] at hvalid ⊢
    exact ⟨_, _, rfl, hx, hy, (isValid_full_iff hx hy).mp hvalid⟩

/-- A point is found again from its first coordinate and the parity of the second one. -/
theorem expand_of_onCurve {x y : Bytes} (hy : y.length = 32) (h : OnCurve (toNat x) (toNat y)) :
    expand (UInt8.ofNat (2 + toNat y % 2)) x = .ok (4 :: (x ++ y)) := by
  have hlift := lift?_eq_some_iff.mpr ⟨h, rfl⟩
  have hbytes : ofNat 32 (toNat y) = y := by
    rw [← hy]
    exact ofNat_toNat y
  simp only [expand, parity?_ofNat, hlift, hbytes]

/-- The full form of a short key is that of the point with its `x` and the parity for which its first
byte stands. -/
theorem expand_eq_ok_iff {lead : UInt8} {x key : Bytes} :
    expand lead x = .ok key ↔ ∃ y, y.length = 32 ∧ OnCurve (toNat x) (toNat y) ∧
      lead = UInt8.ofNat (2 + toNat y % 2) ∧ key = 4 :: (x ++ y) := by
  constructor
  · intro h
    rw [expand] at h
    cases hparity : parity? lead with
    | none =>
      rw [hparity] at h
      cases h
    | some odd =>
      rw [hparity] at h
      dsimp only at h
      cases hlift : Secp256k1.lift? (toNat x) odd with
      | none =>
        rw [hlift] at h
        cases h
      | some y =>
        rw [hlift] at h
        cases h
        obtain ⟨hpoint, rfl⟩ := lift?_eq_some_iff.mp hlift
        have hbytes : toNat (ofNat 32 y) = y := by
          refine toNat_ofNat_of_lt (hpoint.2.1.trans ?_)
          decide
        refine ⟨ofNat 32 y, length_ofNat 32 y, ?_, ?_, rfl⟩
        · rwa [hbytes]
        · rw [hbytes]
          exact eq_of_parity?_eq hparity (parity?_ofNat y)
  · rintro ⟨y, hy, hpoint, rfl, rfl⟩
    exact expand_of_onCurve hy hpoint

end CoinLedger.PublicKey
