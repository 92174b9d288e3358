import Mathlib
import CoinLedger.Proofs.Vlq.Value

/-!
# Variable-length integers in words

Computers write and read these integers in words of a fixed width, whose shifts and sums wrap.
`encodeWord` and `decodeWord` do so, step by step; they give the bytes and the outcomes of `encode`
and `decode` at every width of at least eight bits (`encodeWord_eq`, `decodeWord_eq`), so the written
form of a number does not depend on the width.

`decode_exact_and_width_free` collects what is read, what is refused and what is written.
-/

namespace CoinLedger.Vlq

variable {w : ℕ}

/-! ## Writing -/

lemma toNat_shiftRight_seven (n : BitVec w) : (n >>> 7).toNat = n.toNat / 128 := by
  rw [BitVec.toNat_ushiftRight, Nat.shiftRight_eq_div_pow]

/-- The step to the groups before the last one does not wrap. -/
lemma toNat_shiftRight_sub_one {n : BitVec w} (h : ¬ n.toNat ≤ 127) :
    (n >>> 7 - 1#w).toNat = n.toNat / 128 - 1 := by
  have hlt : n.toNat < 2 ^ w := n.isLt
  have hone : (1#w).toNat = 1 := by
    rw [BitVec.toNat_ofNat, Nat.mod_eq_of_lt (by omega)]
  have hle : 1#w ≤ n >>> 7 := by
    rw [BitVec.le_def, hone, toNat_shiftRight_seven]
    omega
  rw [BitVec.toNat_sub_of_le hle, hone, toNat_shiftRight_seven]

/-- Writes a word backwards in front of `tail`, with `mark` in the first byte written. -/
def encodeWordOnto (n : BitVec w) (mark : UInt8) (tail : Bytes) : Bytes :=
  let written := (UInt8.ofBitVec ((n &&& 127#w).setWidth 8) ||| mark) :: tail
  if n.toNat ≤ 127 then written else encodeWordOnto (n >>> 7 - 1#w) 0x80 written
termination_by n.toNat
decreasing_by
  rw [toNat_shiftRight_sub_one ‹_›]
  omega

/-- The written form of a word. -/
def encodeWord (n : BitVec w) : Bytes := encodeWordOnto n 0 []

/-- Reads a word of `w` bits after `read` bytes that gave `n`. -/
def decodeWordFrom (w : ℕ) : Bytes → ℕ → BitVec w → Except Error (Decoded ℕ)
  | [], read, _ => .error ⟨if read = 0 then .integerMissing else .integerUnterminated, read⟩
  | b :: rest, read, n =>
    if n >>> (w - 7) ≠ 0 then .error ⟨.integerTooWide w, read⟩
    else
      let n := n <<< 7 ||| (b.toBitVec &&& 0x7F).setWidth w
      if b &&& 0x80 = 0 then .ok ⟨n.toNat, read + 1⟩
      else if n = BitVec.allOnes w then .error ⟨.integerTooWide w, read + 1⟩
      else decodeWordFrom w rest (read + 1) (n + 1)

/-- Reads a word of `w` bits from the front of the data. -/
def decodeWord (w : ℕ) (data : Bytes) : Except Error (Decoded ℕ) := decodeWordFrom w data 0 0

/-! ## Bits and groups -/

/-- The last group of a word. -/
lemma ofBitVec_group (hw : 8 ≤ w) (n : BitVec w) :
    UInt8.ofBitVec ((n &&& 127#w).setWidth 8) = UInt8.ofNat (n.toNat % 128) := by
  have hpow : 2 ^ 8 ≤ 2 ^ w := Nat.pow_le_pow_right (by omega) hw
  have hmask : (127#w).toNat = 127 := by
    rw [BitVec.toNat_ofNat, Nat.mod_eq_of_lt (by omega)]
  have hgroup : n.toNat &&& 127 = n.toNat % 128 := Nat.and_two_pow_sub_one_eq_mod _ 7
  apply UInt8.toNat_inj.mp
  rw [UInt8.toNat_ofBitVec, BitVec.toNat_setWidth, BitVec.toNat_and, hmask, hgroup]
  exact UInt8.toNat_ofNat'.symm

/-- Setting bit 7 of a group adds 128. -/
lemma ofNat_or_mark {g : ℕ} (h : g < 128) : UInt8.ofNat g ||| 0x80 = UInt8.ofNat (g + 128) := by
  have hor : 128 ||| g = 128 + g := (Nat.two_pow_add_eq_or_of_lt (i := 7) h 1).symm
  have hg : (UInt8.ofNat g).toNat = g := UInt8.toNat_ofNat_of_lt' (by change g < 256; omega)
  have hmarked : (UInt8.ofNat (g + 128)).toNat = g + 128 :=
    UInt8.toNat_ofNat_of_lt' (by change g + 128 < 256; omega)
  apply UInt8.toNat_inj.mp
  rw [UInt8.toNat_or, hg, hmarked]
  change g ||| 128 = _
  rw [Nat.or_comm, hor, Nat.add_comm]

lemma and_mark_eq_zero_iff (b : UInt8) : b &&& 0x80 = 0 ↔ b.toNat < 128 := by
  have hb : b.toNat < 256 := b.toNat_lt
  have hand : b.toNat &&& 128 = (b.toNat.testBit 7).toNat * 128 := Nat.and_two_pow _ 7
  have htest : b.toNat.testBit 7 = decide (b.toNat / 128 % 2 = 1) :=
    Nat.testBit_eq_decide_div_mod_eq
  have hbit : (decide (b.toNat / 128 % 2 = 1)).toNat = b.toNat / 128 % 2 := by
    rcases Nat.mod_two_eq_zero_or_one (b.toNat / 128) with h | h <;> rw [h] <;> rfl
  rw [← UInt8.toNat_inj, UInt8.toNat_and]
  change b.toNat &&& 128 = 0 ↔ _
  rw [hand, htest, hbit]
  omega

/-- While there is room for one more group, putting it behind the others does not wrap. -/
lemma toNat_shiftLeft_or (hw : 8 ≤ w) {n : BitVec w} (hroom : n.toNat * 128 < 2 ^ w) (b : UInt8) :
    (n <<< 7 ||| (b.toBitVec &&& 0x7F).setWidth w).toNat = n.toNat * 128 + b.toNat % 128 := by
  have hpow : 2 ^ 8 ≤ 2 ^ w := Nat.pow_le_pow_right (by omega) hw
  have hgroup : b.toNat &&& 127 = b.toNat % 128 := Nat.and_two_pow_sub_one_eq_mod _ 7
  have hlow : ((b.toBitVec &&& 0x7F).setWidth w).toNat = b.toNat % 128 := by
    rw [BitVec.toNat_setWidth, BitVec.toNat_and]
    change (b.toNat &&& 127) % 2 ^ w = _
    rw [hgroup, Nat.mod_eq_of_lt (by omega)]
  have hhigh : (n <<< 7).toNat = n.toNat * 128 := by
    rw [BitVec.toNat_shiftLeft, Nat.shiftLeft_eq, Nat.mod_eq_of_lt hroom]
  have hor : 128 * n.toNat + b.toNat % 128 = 128 * n.toNat ||| b.toNat % 128 :=
    Nat.two_pow_add_eq_or_of_lt (i := 7) (Nat.mod_lt _ (by omega)) n.toNat
  rw [BitVec.toNat_or, hhigh, hlow, Nat.mul_comm, hor]

/-! ## Words and numbers -/

lemma encodeWordOnto_mark (hw : 8 ≤ w) (n : BitVec w) (tail : Bytes) :
    encodeWordOnto n 0x80 tail = leading n.toNat ++ tail := by
  induction hn : n.toNat using Nat.strong_induction_on generalizing n tail with
  | _ m ih =>
    subst hn
    have hgroup : UInt8.ofNat (n.toNat % 128) ||| 0x80 = UInt8.ofNat (n.toNat % 128 + 128) :=
      ofNat_or_mark (Nat.mod_lt _ (by omega))
    rw [encodeWordOnto, leading, ofBitVec_group hw, hgroup]
    split
    next h =>
      rw [Nat.mod_eq_of_lt (by omega)]
      rfl
    next h =>
      have hstep := toNat_shiftRight_sub_one h
      rw [ih _ (by omega) _ _ hstep, List.append_assoc]
      rfl

/-- A word is written as the number that it holds. -/
theorem encodeWord_eq (hw : 8 ≤ w) (n : BitVec w) : encodeWord n = encode n.toNat := by
  rw [encodeWord, encodeWordOnto, encode, ofBitVec_group hw, UInt8.or_zero]
  split
  next h => rw [Nat.mod_eq_of_lt (by omega)]
  next h => rw [encodeWordOnto_mark hw, toNat_shiftRight_sub_one h]

lemma decodeWordFrom_eq (hw : 8 ≤ w) (data : Bytes) (read : ℕ) (n : BitVec w) :
    decodeWordFrom w data read n = decodeFrom w data read n.toNat := by
  induction data generalizing read n with
  | nil => rfl
  | cons b rest ih =>
    have hbefore : n >>> (w - 7) ≠ 0 ↔ n.toNat >>> (w - 7) ≠ 0 := by
      rw [Ne, ← BitVec.toNat_inj, BitVec.toNat_ushiftRight]
      rfl
    rw [decodeWordFrom, decodeFrom]
    by_cases hwide : n.toNat >>> (w - 7) ≠ 0
    · rw [if_pos hwide, if_pos (hbefore.mpr hwide)]
    · rw [if_neg hwide, if_neg (fun h => hwide (hbefore.mp h))]
      have hroom : n.toNat * 128 < 2 ^ w := by
        rw [shiftRight_ne_zero_iff (by omega)] at hwide
        omega
      have hvalue := toNat_shiftLeft_or hw hroom b
      have hafter : n <<< 7 ||| (b.toBitVec &&& 0x7F).setWidth w = BitVec.allOnes w ↔
          n.toNat * 128 + b.toNat % 128 = largest w := by
        rw [← BitVec.toNat_inj, hvalue, BitVec.toNat_allOnes, largest, Nat.shiftLeft_eq, one_mul]
      simp only [and_mark_eq_zero_iff, hafter, hvalue]
      split
      next => rfl
      next =>
        split
        next => rfl
        next hfits =>
          have hlt : n.toNat * 128 + b.toNat % 128 + 1 < 2 ^ w := by
            have hword := (n <<< 7 ||| (b.toBitVec &&& 0x7F).setWidth w).isLt
            rw [hvalue] at hword
            rw [largest, Nat.shiftLeft_eq, one_mul] at hfits
            omega
          have hone : (1 : BitVec w).toNat = 1 := by
            change 1 % 2 ^ w = 1
            exact Nat.mod_eq_of_lt (by omega)
          rw [ih, BitVec.toNat_add, hvalue, hone, Nat.mod_eq_of_lt hlt]

/-- A word is read as the number that it holds is. -/
theorem decodeWord_eq (hw : 8 ≤ w) (data : Bytes) : decodeWord w data = decode w data :=
  decodeWordFrom_eq hw data 0 0

/-! ## Exactness -/

/-- What is read at a width of at least eight bits, what is refused there and what is written.

A number is read exactly from bytes whose first byte without bit 7 ends a written form of it, if it
fits; a number that does not fit is refused, and bytes that do not end are reported as cut short or
as too large, the latter only if no end could help.  A number that fits is read back in front of any
bytes, and its written form is the same in words of every width. -/
theorem decode_exact_and_width_free {bits : ℕ} (hbits : 8 ≤ bits) :
    (∀ data v k, decode bits data = .ok ⟨v, k⟩ ↔
      ∃ i, terminator? data = some i ∧ k = i + 1 ∧ value (data.take k) = v ∧ v < 2 ^ bits) ∧
    (∀ data v k, decode bits data = .ok ⟨v, k⟩ → encode v = data.take k) ∧
    (∀ data i, terminator? data = some i → 2 ^ bits ≤ value (data.take (i + 1)) →
      ∃ e, decode bits data = .error e ∧ e.code = .internalError) ∧
    (∀ data, terminator? data = none → ∃ e, decode bits data = .error e ∧
      (e.code = .parseUnderflow ∧ e.bytesRead = data.length ∨
        e.code = .internalError ∧ ∀ rest i, terminator? (data ++ rest) = some i →
          2 ^ bits ≤ value ((data ++ rest).take (i + 1)))) ∧
    (∀ v, v < 2 ^ bits → ∀ rest,
      decode bits (encode v ++ rest) = .ok ⟨v, (encode v).length⟩) ∧
    (∀ data, decodeWord bits data = decode bits data) ∧
    ∀ word : BitVec bits, encodeWord word = encode word.toNat ∧
      ∀ width, 8 ≤ width → ∀ word' : BitVec width, word'.toNat = word.toNat →
        encodeWord word' = encodeWord word := by
  have hgroup : 7 ≤ bits := by omega
  refine ⟨?_, ?_, ?_, ?_, ?_, decodeWord_eq hbits, ?_⟩
  · intro data v k
    exact decode_eq_ok_iff hgroup
  · intro data v k h
    exact encode_eq_take_of_decode hgroup h
  · intro data i hend hwide
    exact exists_error_of_le_value hgroup hend hwide
  · intro data hend
    exact exists_error_of_terminator?_eq_none hgroup hend
  · intro v hv rest
    exact decode_encode_append_of_lt hgroup hv rest
  · intro word
    refine ⟨encodeWord_eq hbits word, ?_⟩
    intro width hwidth word' hsame
    rw [encodeWord_eq hwidth, encodeWord_eq hbits, hsame]

/-- At eight bits, 255 is read in front of another byte, 256 is refused, two bytes that could only
begin a larger number are refused without their end, and 255 is written as at 128 bits. -/
theorem decode_exact_eight_bits :
    decode 8 [0x80, 0x7F, 0xAA] = .ok ⟨255, 2⟩ ∧ encode 255 = [0x80, 0x7F] ∧
    (terminator? [0x81, 0x00] = some 1 ∧ value [0x81, 0x00] = 256 ∧
      ∃ e, decode 8 [0x81, 0x00] = .error e ∧ e.code = .internalError) ∧
    (terminator? [0xFF, 0xFF] = none ∧ ∃ e, decode 8 [0xFF, 0xFF] = .error e ∧
      (e.code = .parseUnderflow ∧ e.bytesRead = 2 ∨
        e.code = .internalError ∧ ∀ rest i, terminator? ([0xFF, 0xFF] ++ rest) = some i →
          2 ^ 8 ≤ value (([0xFF, 0xFF] ++ rest).take (i + 1)))) ∧
    decode 8 (encode 255 ++ [0xAA]) = .ok ⟨255, (encode 255).length⟩ ∧
    encodeWord 255#128 = encodeWord 255#8 := by
  obtain ⟨hok, hwritten, hwide, hopen, hback, -, hword⟩ :=
    decode_exact_and_width_free (le_refl 8)
  have hread : decode 8 [0x80, 0x7F, 0xAA] = .ok ⟨255, 2⟩ :=
    (hok _ _ _).mpr ⟨1, by decide, rfl, by decide, by decide⟩
  refine ⟨hread, hwritten _ _ _ hread, ⟨by decide, by decide, ?_⟩, ⟨by decide, ?_⟩, ?_, ?_⟩
  · exact hwide _ 1 (by decide) (by decide)
  · exact hopen _ (by decide)
  · exact hback 255 (by decide) [0xAA]
  · exact (hword 255#8).2 128 (by decide) 255#128 (by decide)

end CoinLedger.Vlq
