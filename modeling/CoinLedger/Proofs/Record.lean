import Mathlib
import CoinLedger.Proofs.Amount
import CoinLedger.Proofs.Script
import CoinLedger.SpentOutput

/-!
# Records are read back

Outputs, coins and spent outputs are written field by field and read through a cursor.
`Cursor.read_append` is the step: a field at the cursor is read and the cursor moves behind it.

`TxOut.decode_encode_append` and `SpentOutput.decode_encode_append` give back a record at the front
of any byte string; `Coin.decode_encode` gives back a record that fills its byte string.
`SpentOutput.decodeAfter_encodeAs_append` is the statement for entries of a journal, which may carry
the header code 0 in place of a remembered one.

The lengths in records have 64 bits, so a script is read back if its compressed form is shorter than
`2 ^ 64` bytes (`TxOut.Storable`); in a record that is shorter it is.
-/

namespace CoinLedger

/-! ## Fields -/

/-- A field at the cursor is read, and the cursor moves behind it. -/
lemma Cursor.read_append {α : Type} {decode : Bytes → Except Error (Decoded α)}
    {field rest : Bytes} {value : α} (h : decode (field ++ rest) = .ok ⟨value, field.length⟩)
    (pos : ℕ) :
    Cursor.read decode ⟨pos, field ++ rest⟩ = .ok (value, ⟨pos + field.length, rest⟩) := by
  have hmin : min field.length (field ++ rest).length = field.length :=
    min_eq_left (by rw [List.length_append]; omega)
  simp only [Cursor.read, h, Cursor.advance, Cursor.remaining, hmin, List.drop_left]

namespace Header

lemma code_lt (h : Header) : h.code < 2 ^ 33 := by
  have hheight : h.height.toNat < 2 ^ 32 := h.height.toNat_lt
  have hflag : h.coinbase.toNat ≤ 1 := Bool.toNat_le h.coinbase
  rw [code]
  omega

lemma code_le_largest (h : Header) : h.code ≤ Vlq.largest 64 := by
  refine Vlq.le_largest_of_lt (h.code_lt.trans ?_)
  decide

lemma code_div_two (h : Header) : h.code / 2 = h.height.toNat := by
  have hflag : h.coinbase.toNat ≤ 1 := Bool.toNat_le h.coinbase
  rw [code]
  omega

/-- A header code is odd for a coinbase. -/
lemma decide_code_mod_two (h : Header) : decide (h.code % 2 = 1) = h.coinbase := by
  rw [code, Nat.mul_add_mod_self_right]
  cases h.coinbase <;> rfl

/-- A header is found again from its code. -/
@[simp] lemma ofCode_code (h : Header) (read : ℕ) : ofCode h.code read = .ok h := by
  simp only [ofCode, heightOfCode, code_div_two, decide_code_mod_two, h.height.toNat_lt_size,
    if_true, UInt32.ofNat_toNat]

/-- A header code is read exactly as the header whose code it is. -/
lemma ofCode_eq_ok_iff {code read : ℕ} {h : Header} : ofCode code read = .ok h ↔ code = h.code := by
  constructor
  · intro hread
    rw [ofCode, heightOfCode] at hread
    by_cases hheight : code / 2 < UInt32.size
    · rw [if_pos hheight] at hread
      cases hread
      have hback : (UInt32.ofNat (code / 2)).toNat = code / 2 := UInt32.toNat_ofNat_of_lt' hheight
      have hodd : (decide (code % 2 = 1)).toNat = code % 2 := by
        rcases Nat.mod_two_eq_zero_or_one code with hmod | hmod <;> rw [hmod] <;> rfl
      rw [Header.code, hback, hodd]
      omega
    · rw [if_neg hheight] at hread
      cases hread
  · rintro rfl
    exact ofCode_code h read

end Header

/-! ## Outputs -/

namespace TxOut

lemma encode_ne_nil (out : TxOut) : out.encode ≠ [] :=
  List.append_ne_nil_of_left_ne_nil (Vlq.encode_ne_nil _) _

/-- Whether the length of the compressed script has 64 bits, as it has to when it is read back. -/
def Storable (out : TxOut) : Prop := (Script.compress out.script).length < UInt64.size

lemma storable_of_length_lt {out : TxOut} (h : out.encode.length < UInt64.size) : out.Storable := by
  rw [encode, List.length_append] at h
  exact (Nat.le_add_left _ _).trans_lt h

/-- An output is read back from the front of any byte string. -/
theorem decode_encode_append {out : TxOut} (hscript : out.Storable) (rest : Bytes) :
    decode (out.encode ++ rest) = .ok ⟨out, out.encode.length⟩ := by
  obtain ⟨amount, script⟩ := out
  have hlength : (encode ⟨amount, script⟩).length =
      Vlq.size (Amount.compress amount) + (Script.compress script).length := by
    rw [encode, List.length_append, Vlq.length_encode]
  have hpos : 0 < (Script.compress script).length :=
    List.length_pos_iff.mpr (Script.compress_ne_nil script)
  have hcode : Amount.compress amount ≤ Vlq.largest 128 := by
    rw [Vlq.le_largest_iff]
    have hle := Amount.compress_le amount
    have hword : amount.toNat < 2 ^ 64 := amount.toNat_lt
    omega
  have hdrop : (Vlq.encode (Amount.compress amount) ++ (Script.compress script ++ rest)).drop
      (Vlq.size (Amount.compress amount)) = Script.compress script ++ rest :=
    List.drop_left' (Vlq.length_encode _)
  have hwhole := Script.decompress_compress_append hscript []
  rw [List.append_nil] at hwhole
  rw [hlength, encode, List.append_assoc, decode, Vlq.decode_encode_append (by omega) hcode]
  simp only [hdrop]
  rw [if_neg, decodeScript, Script.readSize_compress_append hscript]
  · simp only [Amount.decompress_compress, List.take_left, hwhole]
    rw [if_neg]
    rw [List.length_append]
    omega
  · rw [List.length_append, List.length_append, Vlq.length_encode]
    omega

end TxOut

/-! ## Coins -/

namespace Coin

/-- A coin is read back from its record. -/
theorem decode_encode {c : Coin} (hsize : c.encode.length < UInt64.size) :
    decode c.encode = .ok c := by
  have hout : c.out.encode.length < UInt64.size := by
    rw [encode, List.length_append] at hsize
    omega
  have hcode := Vlq.decode_encode_append (by omega) c.header.code_le_largest c.out.encode
  rw [← Vlq.length_encode] at hcode
  have hheader := Cursor.read_append hcode 0
  have hrecord := Cursor.read_append
    (TxOut.decode_encode_append (TxOut.storable_of_length_lt hout) [])
    (0 + (Vlq.encode c.header.code).length)
  rw [List.append_nil] at hrecord
  have hne : c.encode ≠ [] := List.append_ne_nil_of_left_ne_nil (Vlq.encode_ne_nil _) _
  rw [decode, if_neg hne, encode, Cursor.start, hheader]
  simp only [Cursor.atEnd, List.isEmpty_iff, c.out.encode_ne_nil, if_false, Header.ofCode_code,
    hrecord, if_true]

end Coin

/-! ## Spent outputs -/

namespace SpentOutput

/-- A header code and its reserved number are read in front of other bytes. -/
lemma decodeHeader_append {code : ℕ} (hcode : code ≤ Vlq.largest 64) {body : Bytes}
    (hbody : body ≠ []) :
    decodeHeader (Vlq.encode code ++ reserved code ++ body) =
      .ok (code, ⟨(Vlq.encode code ++ reserved code).length, body⟩) := by
  have hread := Vlq.decode_encode_append (by omega) hcode (reserved code ++ body)
  rw [← Vlq.length_encode] at hread
  have hheader := Cursor.read_append hread 0
  have hrest : reserved code ++ body ≠ [] := List.append_ne_nil_of_right_ne_nil _ hbody
  rw [List.append_assoc, decodeHeader, Cursor.start, hheader,
    if_neg (List.append_ne_nil_of_left_ne_nil (Vlq.encode_ne_nil _) _)]
  simp only [Cursor.atEnd, List.isEmpty_iff, hrest, if_false]
  by_cases hhas : hasReserved code = true
  · have hzero : Vlq.decode 64 (Vlq.encode 0 ++ body) = .ok ⟨0, Vlq.size 0⟩ :=
      Vlq.decode_encode_append (by omega) (Nat.zero_le _) body
    rw [← Vlq.length_encode] at hzero
    have hskip := Cursor.read_append hzero (0 + (Vlq.encode code).length)
    have hfield : reserved code = Vlq.encode 0 := if_pos hhas
    rw [if_pos hhas, hfield, hskip]
    simp only [hbody, if_false, List.length_append, Nat.zero_add]
  · have hfield : reserved code = [] := if_neg hhas
    rw [if_neg hhas, hfield, List.nil_append, List.append_nil, Nat.zero_add]

/-- An entry is read behind a remembered header code, if the written header code stands for the
header of the entry there. -/
theorem decodeAfter_encodeAs_append {remembered : Option ℕ} {code : ℕ} {s : SpentOutput}
    (hcode : code ≤ Vlq.largest 64) (hheader : repeated remembered code = s.header.code)
    (hstorable : s.out.Storable) (rest : Bytes) :
    decodeAfter remembered (encodeAs code s ++ rest) =
      (.ok ⟨s, (encodeAs code s).length⟩, remember remembered code) := by
  have hbody : s.out.encode ++ rest ≠ [] :=
    List.append_ne_nil_of_left_ne_nil s.out.encode_ne_nil _
  have hout := Cursor.read_append (TxOut.decode_encode_append hstorable rest)
    (Vlq.encode code ++ reserved code).length
  rw [encodeAs, List.append_assoc _ _ rest, decodeAfter, decodeHeader_append hcode hbody]
  simp only [hheader, decodeOutput, Header.ofCode_code, hout]
  rw [← List.length_append]

lemma encodeAs_ne_nil (code : ℕ) (s : SpentOutput) : encodeAs code s ≠ [] :=
  List.append_ne_nil_of_right_ne_nil _ s.out.encode_ne_nil

lemma storable_of_length_encodeAs_lt {code : ℕ} {s : SpentOutput}
    (h : (encodeAs code s).length < UInt64.size) : s.out.Storable := by
  rw [encodeAs, List.length_append] at h
  exact TxOut.storable_of_length_lt ((Nat.le_add_left _ _).trans_lt h)

lemma repeated_none (code : ℕ) : repeated none code = code := by
  rw [repeated]
  split
  next hzero => exact hzero.symm
  next => rfl

/-- An entry on its own is read back from the front of any byte string. -/
theorem decode_encode_append {s : SpentOutput} (hsize : s.out.encode.length < UInt64.size)
    (rest : Bytes) : decode (s.encode ++ rest) = .ok ⟨s, s.encode.length⟩ := by
  rw [decode, encode, decodeAfter_encodeAs_append s.header.code_le_largest (repeated_none _)
    (TxOut.storable_of_length_lt hsize)]

end SpentOutput

/-! ## Nothing is lost -/

/-- Every coin is read back from its record, and every spent output from its entry in front of any
bytes, of which exactly the entry is counted as read. -/
theorem records_restored :
    (∀ c : Coin, c.encode.length < UInt64.size → Coin.decode c.encode = .ok c) ∧
    ∀ s : SpentOutput, s.encode.length < UInt64.size → ∀ rest,
      SpentOutput.decode (s.encode ++ rest) = .ok ⟨s, s.encode.length⟩ := by
  constructor
  · intro c hsize
    exact Coin.decode_encode hsize
  · intro s hsize rest
    have hout : s.out.encode.length < UInt64.size := by
      rw [SpentOutput.encode, SpentOutput.encodeAs, List.length_append] at hsize
      omega
    exact SpentOutput.decode_encode_append hout rest

/-- A coin with the largest height and amount, whose script is one byte away from a payment to the
hash of a key. -/
def largestCoin : Coin :=
  ⟨⟨0xFFFFFFFF, true⟩, 0xFFFFFFFFFFFFFFFF,
    [0x76, 0xa9, 0x14] ++ List.replicate 20 7 ++ [0x88, 0xad]⟩

/-- The record of that coin. -/
def largestRecord : Bytes :=
  [0x9e, 0xfe, 0xfe, 0xfe, 0x7f] ++
    [0x90, 0xfe, 0xfe, 0xfe, 0xfe, 0xfe, 0xfe, 0xfe, 0xfe, 0x73] ++
    [31, 0x76, 0xa9, 0x14] ++ List.replicate 20 7 ++ [0x88, 0xad]

/-- A spent output of height 0, whose entry has no reserved number. -/
def lowestOutput : SpentOutput := ⟨⟨0, true⟩, 0, [0xa9, 0x14] ++ List.replicate 20 7 ++ [0x87]⟩

/-- The extremes are read back. -/
theorem records_restored_extremes :
    largestCoin.encode = largestRecord ∧ Coin.decode largestRecord = .ok largestCoin ∧
    lowestOutput.encode = [1, 0, 1] ++ List.replicate 20 7 ∧
    SpentOutput.decode ([1, 0, 1] ++ List.replicate 20 7 ++ [0xee]) = .ok ⟨lowestOutput, 23⟩ := by
  have hcoin : largestCoin.encode = largestRecord := by cbv
  have hspent : lowestOutput.encode = [1, 0, 1] ++ List.replicate 20 7 := by cbv
  have hread := records_restored.1 largestCoin (by rw [hcoin]; decide)
  have hentry := records_restored.2 lowestOutput (by rw [hspent]; decide) [0xee]
  rw [hcoin] at hread
  rw [hspent] at hentry
  exact ⟨hcoin, hread, hspent, hentry⟩

end CoinLedger
