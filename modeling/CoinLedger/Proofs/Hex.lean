import Mathlib
import CoinLedger.Proofs.Text
import CoinLedger.Hex

/-!
# Hexadecimal text is read back

The two digits of a byte make up the byte again (`byte_digits`), so the digits of a byte string are read
back as that byte string (`decode_encode`).  The other way round, an even number of digits is written again
in lower case (`encode_pack`); every other text is refused at its first byte that is no digit, or else at
its end (`Refusal`).
-/

namespace CoinLedger.Hex

/-! ## Digits -/

lemma digitValue?_digit {d : ℕ} (hd : d < 16) : digitValue? (digit d) = some d := by
  interval_cases d <;> rfl

/-- The bytes that are digits, in either case. -/
def alphabet : Text := Text.ofString "0123456789abcdefABCDEF"

lemma isDigit_iff (b : UInt8) : isDigit b = true ↔ b ∈ alphabet := by
  have hall : ∀ b : UInt8, isDigit b = true ↔ b ∈ alphabet := by decide +kernel
  exact hall b

/-- No byte is found that is no digit. -/
lemma findIdx?_eq_none_iff {t : Text} :
    t.findIdx? (fun b => !isDigit b) = none ↔ ∀ b ∈ t, b ∈ alphabet := by
  rw [List.findIdx?_eq_none_iff]
  simp only [Bool.not_eq_false', isDigit_iff]

lemma exists_digitValue? {b : UInt8} (h : b ∈ alphabet) : ∃ v, digitValue? b = some v :=
  Option.isSome_iff_exists.mp ((isDigit_iff b).mpr h)

/-- What is written for the value of a digit is the digit in lower case. -/
lemma digit_of_digitValue? {b : UInt8} {v : ℕ} (h : digitValue? b = some v) :
    v < 16 ∧ digit v = Text.lower b := by
  have hall : ∀ b : UInt8, ∀ v ∈ digitValue? b, v < 16 ∧ digit v = Text.lower b := by
    decide +kernel
  exact hall b v h

lemma isSpace_digit {d : ℕ} (hd : d < 16) : Text.isSpace (digit d) = false := by
  interval_cases d <;> rfl

/-- A byte stands for itself behind its two digits. -/
lemma byte_digits (b : UInt8) : byte (digit (b.toNat / 16)) (digit (b.toNat % 16)) = b := by
  have hb := b.toNat_lt
  rw [byte, digitValue?_digit (by omega), digitValue?_digit (by omega), Option.getD_some,
    Option.getD_some, Nat.div_add_mod', UInt8.ofNat_toNat]

/-- A byte is written as the two digits that it was read from, in lower case. -/
lemma digits_byte {hi lo : UInt8} (hhi : hi ∈ alphabet) (hlo : lo ∈ alphabet) :
    digits (byte hi lo) = [Text.lower hi, Text.lower lo] := by
  obtain ⟨v, hv⟩ := exists_digitValue? hhi
  obtain ⟨u, hu⟩ := exists_digitValue? hlo
  obtain ⟨hv_lt, hv_digit⟩ := digit_of_digitValue? hv
  obtain ⟨hu_lt, hu_digit⟩ := digit_of_digitValue? hu
  have hbyte : (byte hi lo).toNat = v * 16 + u := by
    rw [byte, hv, hu, Option.getD_some, Option.getD_some]
    exact UInt8.toNat_ofNat_of_lt' (by change v * 16 + u < 256; omega)
  have hhigh : (v * 16 + u) / 16 = v := by omega
  have hlow : (v * 16 + u) % 16 = u := by omega
  rw [digits, hbyte, hhigh, hlow, hv_digit, hu_digit]

/-- Every byte of the text of a byte string is a digit. -/
lemma exists_of_mem_encode {data : Bytes} {b : UInt8} (h : b ∈ encode data) :
    ∃ d, d < 16 ∧ b = digit d := by
  obtain ⟨c, -, hc⟩ := List.mem_flatMap.mp h
  have hlt := c.toNat_lt
  rcases List.mem_cons.mp hc with rfl | hc
  · exact ⟨_, by omega, rfl⟩
  · exact ⟨_, by omega, List.mem_singleton.mp hc⟩

lemma mem_alphabet_of_mem_encode {data : Bytes} {b : UInt8} (h : b ∈ encode data) : b ∈ alphabet := by
  obtain ⟨d, hd, rfl⟩ := exists_of_mem_encode h
  rw [← isDigit_iff, isDigit, digitValue?_digit hd]
  rfl

lemma spaceless_encode (data : Bytes) : Text.Spaceless (encode data) := by
  intro b hb
  obtain ⟨d, hd, rfl⟩ := exists_of_mem_encode hb
  exact isSpace_digit hd

/-! ## Byte strings -/

lemma encode_cons (b : UInt8) (data : Bytes) :
    encode (b :: data) = digit (b.toNat / 16) :: digit (b.toNat % 16) :: encode data := rfl

lemma pack_encode (data : Bytes) : pack (encode data) = data := by
  induction data with
  | nil => rfl
  | cons b data ih => rw [encode_cons, pack, byte_digits, ih]

lemma length_encode (data : Bytes) : (encode data).length = 2 * data.length := by
  induction data with
  | nil => rfl
  | cons b data ih =>
    rw [encode_cons, List.length_cons, List.length_cons, ih, List.length_cons]
    omega

/-- The text of a byte string is read back as that byte string. -/
theorem decode_encode (data : Bytes) : decode (encode data) = .ok data := by
  rw [decode, findIdx?_eq_none_iff.mpr fun b hb => mem_alphabet_of_mem_encode hb]
  dsimp only
  rw [if_pos (by rw [length_encode]; omega), pack_encode]

lemma encode_injective : Function.Injective encode :=
  Function.LeftInverse.injective pack_encode

/-! ## Texts -/

/-- An even number of digits is read and written again in lower case. -/
lemma encode_pack {t : Text} (heven : t.length % 2 = 0) (h : ∀ b ∈ t, b ∈ alphabet) :
    encode (pack t) = t.map Text.lower := by
  induction t using pack.induct with
  | case1 => rfl
  | case2 b => cases heven
  | case3 hi lo rest ih =>
    rw [List.length_cons, List.length_cons] at heven
    obtain ⟨hhi, hrest⟩ := List.forall_mem_cons.mp h
    obtain ⟨hlo, hrest⟩ := List.forall_mem_cons.mp hrest
    have hpair : encode (pack (hi :: lo :: rest)) = digits (byte hi lo) ++ encode (pack rest) := rfl
    rw [hpair, digits_byte hhi hlo, ih (by omega) hrest]
    rfl

/-- What is accepted is an even number of digits. -/
lemma isHex_iff {t : Text} : isHex t = true ↔ t.length % 2 = 0 ∧ ∀ b ∈ t, b ∈ alphabet := by
  rw [isHex, Bool.and_eq_true, beq_iff_eq, List.all_eq_true]
  simp only [isDigit_iff]

/-- A text that is accepted is read two digits at a time. -/
lemma decode_of_isHex {t : Text} (h : isHex t = true) : decode t = .ok (pack t) := by
  obtain ⟨heven, hdigits⟩ := isHex_iff.mp h
  rw [decode, findIdx?_eq_none_iff.mpr hdigits]
  exact if_pos heven

/-- How a text is refused: at its first byte that is no digit or, if there is none, at its end. -/
inductive Refusal (t : Text) : Error → Prop
  /-- the byte `b` is no digit, and those in front of it are -/
  | noDigit (front : Text) (b : UInt8) (rest : Text) : t = front ++ b :: rest →
      (∀ c ∈ front, c ∈ alphabet) → b ∉ alphabet → Refusal t ⟨.hexDigit, front.length⟩
  /-- all bytes are digits, and the last one stands alone -/
  | oddLength : (∀ c ∈ t, c ∈ alphabet) → t.length % 2 = 1 → Refusal t ⟨.hexOddLength, t.length⟩

/-- A text that is not accepted is refused. -/
lemma exists_refusal {t : Text} (h : ¬ isHex t = true) : ∃ e, decode t = .error e ∧ Refusal t e := by
  rw [decode]
  cases hfind : t.findIdx? (fun b => !isDigit b) with
  | none =>
    have hdigits := findIdx?_eq_none_iff.mp hfind
    have hodd : ¬ t.length % 2 = 0 := fun heven => h (isHex_iff.mpr ⟨heven, hdigits⟩)
    exact ⟨_, if_neg hodd, .oddLength hdigits (by omega)⟩
  | some i =>
    obtain ⟨hi, hbad, hfront⟩ := List.findIdx?_eq_some_iff_getElem.mp hfind
    have hlength : (t.take i).length = i := List.length_take_of_le hi.le
    have hsplit : t = t.take i ++ t[i] :: t.drop (i + 1) := by
      rw [List.getElem_cons_drop, List.take_append_drop]
    refine ⟨_, rfl, ?_⟩
    have hrefusal := Refusal.noDigit (t.take i) t[i] (t.drop (i + 1)) hsplit ?_ ?_
    · rwa [hlength] at hrefusal
    · intro c hc
      obtain ⟨j, hj, rfl⟩ := List.mem_iff_getElem.mp hc
      rw [List.getElem_take, ← isDigit_iff]
      simpa using hfront j (by omega)
    · rw [← isDigit_iff]
      simpa using hbad

/-- What is read from a text: two digits make a byte, if the text is accepted. -/
lemma decode_eq_ok_iff {t : Text} {data : Bytes} :
    decode t = .ok data ↔ isHex t = true ∧ data = pack t := by
  constructor
  · intro hread
    have hhex : isHex t = true := by
      by_contra hnot
      obtain ⟨e, herror, -⟩ := exists_refusal hnot
      rw [hread] at herror
      cases herror
    rw [decode_of_isHex hhex] at hread
    exact ⟨hhex, (Except.ok.inj hread).symm⟩
  · rintro ⟨hhex, rfl⟩
    exact decode_of_isHex hhex

lemma refusal_of_decode {t : Text} {e : Error} (h : decode t = .error e) : Refusal t e := by
  have hnot : ¬ isHex t = true := by
    intro hhex
    rw [decode_of_isHex hhex] at h
    cases h
  obtain ⟨e', herror, hrefusal⟩ := exists_refusal hnot
  rw [h] at herror
  cases herror
  exact hrefusal

end CoinLedger.Hex
