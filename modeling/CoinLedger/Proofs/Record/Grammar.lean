import Mathlib
import CoinLedger.Proofs.Amount.Bijection
import CoinLedger.Proofs.Record.Coin
import CoinLedger.Proofs.Script.Denotes
import CoinLedger.Proofs.Script.Template

/-!
# The grammar of coin records

`Coin.decode_eq_ok_iff_denotes`: the bytes that are read as a given coin are its header code and its
amount code in written form, followed by bytes that denote its script.  The two codes are determined
by the coin; the bytes of the script need not be the ones that would be written for it.

The statement for outputs, `TxOut.decode_eq_ok_length_iff`, brings together what is known of amount
codes and of scripts, and a coin puts a header in front of it.
-/

namespace CoinLedger

/-! ## Outputs -/

namespace TxOut

lemma compress_amount_lt (amount : UInt64) : Amount.compress amount < 2 ^ 128 := by
  have hle := Amount.compress_le amount
  have hword : amount.toNat < 2 ^ 64 := amount.toNat_lt
  omega

/-- An output is read from all of some bytes exactly if they are its amount code and bytes that denote
its script. -/
theorem decode_eq_ok_length_iff {data : Bytes} (hsize : data.length < UInt64.size) {out : TxOut} :
    decode data = .ok ⟨out, data.length⟩ ↔ ∃ stored,
      data = Vlq.encode (Amount.compress out.amount) ++ stored ∧
        Script.Denotes stored out.script := by
  constructor
  · intro h
    obtain ⟨⟨code, k⟩, hcode, -, hscript⟩ := decode_eq_ok_iff.mp h
    obtain ⟨-, hk, stored, rfl⟩ := (Vlq.decode_eq_ok_iff_encode (by omega)).mp hcode
    obtain rfl : k = Vlq.size code := hk
    rw [List.drop_left' (Vlq.length_encode code)] at hscript
    obtain ⟨size, amount, script, hread, -, hamount, hback, hout⟩ :=
      decodeScript_eq_ok_iff.mp hscript
    rw [List.length_append, Vlq.length_encode] at hsize hout
    have hlength : size = stored.length := by
      have hbytes := congrArg Decoded.bytesRead hout
      dsimp only at hbytes
      omega
    obtain rfl : out = ⟨amount, script⟩ := congrArg Decoded.value hout
    rw [hlength] at hread
    rw [hlength, List.take_length] at hback
    refine ⟨stored, ?_, (Script.denotes_iff (by omega)).mpr ⟨hread, hback⟩⟩
    rw [Amount.decompress_eq_ok_iff.mp hamount]
  · rintro ⟨stored, rfl, hdenotes⟩
    rw [List.length_append, Vlq.length_encode] at hsize ⊢
    obtain ⟨hread, hback⟩ := (Script.denotes_iff (by omega)).mp hdenotes
    have hpos := (Script.readSize_take hread).1
    refine decode_eq_ok_iff.mpr ⟨⟨Amount.compress out.amount, Vlq.size (Amount.compress out.amount)⟩,
      Vlq.decode_encode_append (by omega) (Vlq.le_largest_iff.mpr (compress_amount_lt _)) stored,
      ?_, ?_⟩
    · rw [List.length_append, Vlq.length_encode]
      dsimp only
      omega
    · rw [List.drop_left' (Vlq.length_encode _)]
      refine decodeScript_eq_ok_iff.mpr ⟨stored.length, out.amount, out.script, hread, le_rfl,
        Amount.decompress_compress _, ?_, rfl⟩
      rw [List.take_length, hback]

/-- An output that is read from any bytes can be stored again. -/
lemma storable_of_decode {data : Bytes} {d : Decoded TxOut} (h : decode data = .ok d) :
    d.value.Storable := by
  obtain ⟨code, -, -, hscript⟩ := decode_eq_ok_iff.mp h
  obtain ⟨size, amount, script, hread, hfits, -, hback, rfl⟩ := decodeScript_eq_ok_iff.mp hscript
  have hlength : ((data.drop code.bytesRead).take size).length = size := List.length_take_of_le hfits
  have hwhole := (Script.readSize_take hread).2
  rw [← hlength] at hwhole
  refine (Script.denotes_of_read ?_ hback).length_compress_lt ?_
  · rwa [hlength] at hwhole ⊢
  · rw [hlength]
    exact Script.readSize_lt hread

end TxOut

/-! ## Coins -/

namespace Coin

/-- A record is read as a coin exactly if it is the header code of the coin with its output behind
it. -/
lemma decode_eq_ok_iff_txOut {data : Bytes} {c : Coin} :
    decode data = .ok c ↔ ∃ body, data = Vlq.encode c.header.code ++ body ∧
      TxOut.decode body = .ok ⟨c.out, body.length⟩ := by
  rw [decode_eq_ok_iff_front, decodeFront, SpentOutput.decodeBehind_eq_ok_iff]
  constructor
  · rintro ⟨code, cursor, hfirst, hout⟩
    obtain ⟨-, body, -, rfl, rfl⟩ := Cursor.readFirst_eq_ok_iff.mp hfirst
    obtain ⟨header, out, hcode, hread, hcoin⟩ := SpentOutput.decodeOutput_eq_ok_iff.mp hout
    obtain rfl : code = header.code := hcode
    have hbytes := congrArg Decoded.bytesRead hcoin
    obtain ⟨rfl, hvalue⟩ : c.header = header ∧ c.out = out.value :=
      SpentOutput.mk.inj (congrArg Decoded.value hcoin)
    have hlength : out.bytesRead = body.length := by
      rw [List.length_append] at hbytes
      dsimp only at hbytes
      omega
    refine ⟨body, rfl, ?_⟩
    rw [hread, ← hlength, hvalue]
  · rintro ⟨body, rfl, hread⟩
    have hbody : body ≠ [] := by
      rintro rfl
      cases hread
    have hcode : c.header.code < 2 ^ 64 := Vlq.le_largest_iff.mp c.header.code_le_largest
    refine ⟨c.header.code, _, Cursor.readFirst_eq_ok_iff.mpr ⟨hcode, body, hbody, rfl, rfl⟩,
      SpentOutput.decodeOutput_eq_ok_iff.mpr ⟨c.header, _, rfl, hread, ?_⟩⟩
    rw [List.length_append]
    rfl

/-- A record is read as a coin exactly if it is twice the height of the coin, plus one for a coinbase,
and the code of its amount, both in written form, followed by bytes that denote its script. -/
theorem decode_eq_ok_iff_denotes {data : Bytes} (hsize : data.length < UInt64.size) {c : Coin} :
    decode data = .ok c ↔ ∃ stored,
      data = Vlq.encode (2 * c.header.height.toNat + c.header.coinbase.toNat) ++
        Vlq.encode (Amount.compress c.out.amount) ++ stored ∧
      Script.Denotes stored c.out.script := by
  have hcode : c.header.code = 2 * c.header.height.toNat + c.header.coinbase.toNat := by
    rw [Header.code, mul_comm]
  rw [decode_eq_ok_iff_txOut, hcode]
  constructor
  · rintro ⟨body, rfl, hread⟩
    rw [List.length_append] at hsize
    obtain ⟨stored, rfl, hdenotes⟩ := (TxOut.decode_eq_ok_length_iff (by omega)).mp hread
    exact ⟨stored, (List.append_assoc _ _ _).symm, hdenotes⟩
  · rintro ⟨stored, rfl, hdenotes⟩
    rw [List.append_assoc, List.length_append] at hsize
    exact ⟨_, List.append_assoc _ _ _,
      (TxOut.decode_eq_ok_length_iff (by omega)).mpr ⟨stored, rfl, hdenotes⟩⟩

/-- The record of a payment to the key of the base point with odd `y`. -/
def oddKeyRecord : Bytes := [6, 50, 5] ++ Script.baseX

/-- That record is read as the payment to the full key. -/
theorem decode_oddKeyRecord :
    oddKeyRecord.length < UInt64.size ∧
      decode oddKeyRecord = .ok ⟨⟨3, false⟩, 5000000000,
        [0x41, 4] ++ (Script.baseX ++ Script.oddBaseY) ++ [0xac]⟩ := by
  have hsize : oddKeyRecord.length < UInt64.size := by decide
  have hpoint : Secp256k1.OnCurve (PublicKey.toNat Script.baseX) (PublicKey.toNat Script.oddBaseY) :=
    Secp256k1.isPoint_iff_onCurve.mp (by decide +kernel)
  have hstored := Script.Denotes.fullKey _ _ (by decide) (by decide) hpoint
  have hodd : PublicKey.toNat Script.oddBaseY % 2 = 1 := by decide +kernel
  have hcodes : Vlq.encode (2 * UInt32.toNat 3 + Bool.toNat false) ++
      Vlq.encode (Amount.compress 5000000000) = [6, 50] := by cbv
  rw [hodd] at hstored
  refine ⟨hsize, (decode_eq_ok_iff_denotes hsize).mpr ⟨5 :: Script.baseX, ?_, hstored⟩⟩
  rw [hcodes]
  rfl

end Coin

end CoinLedger
