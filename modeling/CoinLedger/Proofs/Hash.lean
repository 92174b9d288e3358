import Mathlib
import CoinLedger.Hash
import CoinLedger.Proofs.Hex

/-!
# Texts and order of hashes

A hash is the little-endian form of a number, `value`, and its text is the big-endian form of the same
number in digits.  Reading takes exactly the texts of 64 digits, with or without a marker in front
(`DigitsOf`), and gives the hash with these digits (`ofText_of_digitsOf`, `toText_ofDigits`).

The order of hashes is that of their numbers (`compare_eq_compare_value`), because a number in front
decides before the numbers behind it, and that of their texts (`compare_eq_compareLex_toText`), because
the digits are in the order of their values.
-/

namespace CoinLedger.Hash

open Text (ofString)

/-- Different hashes have different bytes. -/
lemma bytes_injective : Function.Injective bytes := by
  rintro ⟨a, ha⟩ ⟨b, hb⟩ rfl
  rfl

/-! ## Texts -/

/-- The digits of the text of a hash: 64 of them, behind a marker or not. -/
structure DigitsOf (t digits : Text) : Prop where
  marked : t = digits ∨ t = ofString "0x" ++ digits ∨ t = ofString "0X" ++ digits
  length : digits.length = 64
  digits : ∀ b ∈ digits, b ∈ Hex.alphabet

/-- A text is what follows its marker, with or without the marker. -/
lemma eq_append_dropMarker (t : Text) :
    t = dropMarker t ∨ t = ofString "0x" ++ dropMarker t ∨ t = ofString "0X" ++ dropMarker t := by
  rw [dropMarker.eq_def]
  split
  · exact Or.inr (Or.inl rfl)
  · exact Or.inr (Or.inr rfl)
  · exact Or.inl rfl

/-- The second byte of a marker is no digit, so what follows the marker is what was put behind it. -/
lemma DigitsOf.dropMarker_eq {t digits : Text} (h : DigitsOf t digits) : dropMarker t = digits := by
  rcases h.marked with rfl | rfl | rfl
  · rw [dropMarker.eq_def]
    split
    · exact absurd (h.digits 120 (by simp)) (by decide +kernel)
    · exact absurd (h.digits 88 (by simp)) (by decide +kernel)
    · rfl
  · rfl
  · rfl

/-- A text with digits is read as the hash of these digits. -/
lemma ofText_of_digitsOf {t digits : Text} (h : DigitsOf t digits) :
    ofText t = .ok (ofDigits digits h.length) := by
  obtain rfl := h.dropMarker_eq
  rw [ofText, dif_pos h.length, Hex.findIdx?_eq_none_iff.mpr h.digits]

/-- A text that is read has digits. -/
lemma digitsOf_of_ofText {t : Text} {hash : Hash} (h : ofText t = .ok hash) :
    DigitsOf t (dropMarker t) := by
  rw [ofText] at h
  split at h
  next hlength =>
    split at h
    next => cases h
    next hfind => exact ⟨eq_append_dropMarker t, hlength, Hex.findIdx?_eq_none_iff.mp hfind⟩
  next => cases h

lemma toText_ofDigits {digits : Text} (hlength : digits.length = 64)
    (h : ∀ b ∈ digits, b ∈ Hex.alphabet) :
    (ofDigits digits hlength).toText = digits.map Text.lower := by
  rw [toText, ofDigits, List.reverse_reverse, Hex.encode_pack (by rw [hlength]) h]

/-- The text of a hash is its own digits. -/
lemma digitsOf_toText (hash : Hash) : DigitsOf hash.toText hash.toText := by
  refine ⟨Or.inl rfl, ?_, fun b hb => Hex.mem_alphabet_of_mem_encode hb⟩
  rw [toText, Hex.length_encode, List.length_reverse, hash.length_bytes]

/-- A hash is read back from its text. -/
theorem ofText_toText (hash : Hash) : ofText hash.toText = .ok hash := by
  rw [ofText_of_digitsOf (digitsOf_toText hash)]
  obtain ⟨bytes, hbytes⟩ := hash
  simp only [ofDigits, toText, Hex.pack_encode, List.reverse_reverse]

/-- Different hashes have different texts. -/
lemma toText_injective : Function.Injective toText := by
  intro a b h
  exact bytes_injective (List.reverse_injective (Hex.encode_injective h))

/-! ## Numbers -/

/-- The number that a hash stands for. -/
def value (hash : Hash) : ℕ := Nat.ofDigits 256 (hash.bytes.map UInt8.toNat)

lemma ofDigits_lt (bytes : Bytes) : Nat.ofDigits 256 (bytes.map UInt8.toNat) < 256 ^ bytes.length := by
  have h := Nat.ofDigits_lt_base_pow_length (b := 256) (l := bytes.map UInt8.toNat) (by decide) ?_
  · rwa [List.length_map] at h
  · intro d hd
    obtain ⟨b, -, rfl⟩ := List.mem_map.mp hd
    exact b.toNat_lt

lemma value_lt (hash : Hash) : hash.value < 2 ^ 256 := by
  have h := ofDigits_lt hash.bytes
  rw [hash.length_bytes] at h
  exact h.trans_eq (by norm_num)

/-- The digit in front decides before those behind it. -/
lemma compare_add_mul {B x y : ℕ} (hx : x < B) (hy : y < B) (a b : ℕ) :
    Ord.compare (x + B * a) (y + B * b) = (Ord.compare a b).then (Ord.compare x y) := by
  rcases lt_trichotomy a b with hlt | rfl | hgt
  · have hstep : B * a + B ≤ B * b := Nat.mul_le_mul_left B hlt
    have hsum : x + B * a < y + B * b := by omega
    rw [Nat.compare_eq_lt.mpr hlt, Nat.compare_eq_lt.mpr hsum]
    rfl
  · have hsame : Ord.compare (x + B * a) (y + B * a) = Ord.compare x y := by
      simp only [Nat.compare_eq_ite_lt, Nat.add_lt_add_iff_right]
    rw [Nat.compare_eq_eq.mpr rfl, hsame]
    rfl
  · have hstep : B * b + B ≤ B * a := Nat.mul_le_mul_left B hgt
    have hsum : y + B * b < x + B * a := by omega
    rw [Nat.compare_eq_gt.mpr hgt, Nat.compare_eq_gt.mpr hsum]
    rfl

/-! ## Orders of byte strings -/

lemma compare_toNat (a b : UInt8) : Ord.compare a b = Ord.compare a.toNat b.toNat := by
  change compareOfLessAndEq a b = compareOfLessAndEq a.toNat b.toNat
  simp only [compareOfLessAndEq, UInt8.lt_iff_toNat_lt, ← UInt8.toNat_inj]

/-- The first byte that differs decides. -/
lemma compareBytes_eq_compareLex (as bs : Bytes) :
    compareBytes as bs = List.compareLex Ord.compare as bs := by
  induction as generalizing bs with
  | nil => cases bs <;> rfl
  | cons a as ih =>
    cases bs with
    | nil => rfl
    | cons b bs =>
      rw [compareBytes, List.compareLex_cons_cons, ih, compare_toNat, Nat.compare_eq_ite_lt]
      simp only [← UInt8.lt_iff_toNat_lt]
      split
      · rfl
      · split <;> rfl

/-- Byte strings of the same length are ordered as the numbers of which they are the digits, the first
byte of each before the others. -/
lemma compareLex_eq_compare_ofDigits {as bs : Bytes} (h : as.length = bs.length) :
    List.compareLex Ord.compare as bs =
      Ord.compare (Nat.ofDigits 256 (as.reverse.map UInt8.toNat))
        (Nat.ofDigits 256 (bs.reverse.map UInt8.toNat)) := by
  induction as generalizing bs with
  | nil =>
    cases bs with
    | nil => rfl
    | cons b bs => cases h
  | cons a as ih =>
    cases bs with
    | nil => cases h
    | cons b bs =>
      have hlength : as.length = bs.length := Nat.succ.inj h
      -- the first byte has the largest weight, and the bytes behind it stay below that weight
      have hcons : ∀ (c : UInt8) (cs : Bytes), Nat.ofDigits 256 ((c :: cs).reverse.map UInt8.toNat) =
          Nat.ofDigits 256 (cs.reverse.map UInt8.toNat) + 256 ^ cs.length * c.toNat := by
        intro c cs
        rw [List.reverse_cons, List.map_append, Nat.ofDigits_append, List.length_map,
          List.length_reverse, List.map_singleton, Nat.ofDigits_singleton]
      have hx := ofDigits_lt as.reverse
      have hy := ofDigits_lt bs.reverse
      rw [List.length_reverse] at hx hy
      rw [List.compareLex_cons_cons, hcons, hcons, ← hlength, compare_add_mul hx (hlength ▸ hy),
        ← ih hlength, compare_toNat]

/-- The text of a byte string is in the place of the byte string. -/
lemma compareLex_encode (as bs : Bytes) :
    List.compareLex Ord.compare (Hex.encode as) (Hex.encode bs) =
      List.compareLex Ord.compare as bs := by
  induction as generalizing bs with
  | nil => cases bs <;> rfl
  | cons a as ih =>
    cases bs with
    | nil => rfl
    | cons b bs =>
      have hdigit : ∀ d < 16, ∀ e < 16,
          Ord.compare (Hex.digit d) (Hex.digit e) = Ord.compare d e := by decide
      have ha := a.toNat_lt
      have hb := b.toNat_lt
      have hhalves := compare_add_mul (Nat.mod_lt a.toNat (by decide : 0 < 16))
        (Nat.mod_lt b.toNat (by decide : 0 < 16)) (a.toNat / 16) (b.toNat / 16)
      rw [Nat.mod_add_div, Nat.mod_add_div, ← compare_toNat] at hhalves
      rw [Hex.encode_cons, Hex.encode_cons, List.compareLex_cons_cons, List.compareLex_cons_cons,
        List.compareLex_cons_cons, hdigit _ (by omega) _ (by omega), hdigit _ (by omega) _ (by omega), ih,
        hhalves, Ordering.then_assoc]

/-! ## Order -/

/-- Hashes are ordered as the numbers for which they stand. -/
lemma compare_eq_compare_value (a b : Hash) : compare a b = Ord.compare a.value b.value := by
  have hlength : a.bytes.reverse.length = b.bytes.reverse.length := by
    rw [List.length_reverse, List.length_reverse, a.length_bytes, b.length_bytes]
  rw [compare, compareBytes_eq_compareLex, compareLex_eq_compare_ofDigits hlength,
    List.reverse_reverse, List.reverse_reverse]
  rfl

/-- Hashes are ordered as their texts. -/
lemma compare_eq_compareLex_toText (a b : Hash) :
    compare a b = List.compareLex Ord.compare a.toText b.toText := by
  rw [toText, toText, compareLex_encode, compare, compareBytes_eq_compareLex]

/-- Hashes are equal in their order exactly if they have the same bytes. -/
lemma compare_eq_eq_iff (a b : Hash) : compare a b = .eq ↔ a.bytes = b.bytes := by
  rw [compare, compareBytes_eq_compareLex, Std.LawfulEqCmp.compare_eq_iff_eq, List.reverse_inj]

instance : Std.TransOrd Hash where
  eq_swap := by
    intro a b
    change compare a b = (compare b a).swap
    rw [compare_eq_compare_value, compare_eq_compare_value]
    exact Std.OrientedCmp.eq_swap
  isLE_trans := by
    intro a b c
    change (compare a b).isLE = true → (compare b c).isLE = true → (compare a c).isLE = true
    rw [compare_eq_compare_value, compare_eq_compare_value, compare_eq_compare_value]
    exact Std.TransCmp.isLE_trans

instance : Std.LawfulEqOrd Hash where
  compare_self := by
    intro a
    exact (compare_eq_eq_iff a a).mpr rfl
  eq_of_compare := by
    intro a b h
    exact bytes_injective ((compare_eq_eq_iff a b).mp h)

end CoinLedger.Hash
