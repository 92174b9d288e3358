import Mathlib
import CoinLedger.Proofs.Record
import CoinLedger.Proofs.Script.Tests

/-!
# Sizes of records

The size of a record is known before it is written.  `Coin.length_encode` and `SpentOutput.length_encode`
find it from the size of the header code, of the amount code and of the form of the script.

`sizes_predicted` joins this with integers and scripts as they are counted in words and by tests, and
written through a buffer.
-/

namespace CoinLedger

namespace Script

/-- A template takes its tag and its payload, and a raw script its length and its bytes. -/
lemma Form.length_encode {f : Form} (hf : f.WellFormed) : f.encode.length = f.encodedSize := by
  cases f with
  | keyHash hash => rw [encode, List.length_cons, hf, encodedSize]
  | scriptHash hash => rw [encode, List.length_cons, hf, encodedSize]
  | shortKey key => rw [encode, hf.1, encodedSize]
  | fullKey key =>
    rw [encode, List.length_cons, List.length_take, List.length_drop, hf.1, encodedSize]
    rfl
  | raw script => rw [encode, List.length_append, Vlq.length_encode, encodedSize]

lemma length_compress (script : Bytes) : (compress script).length = compressedSize script :=
  Form.length_encode (wellFormed_form script)

end Script

lemma TxOut.length_encode (out : TxOut) : out.encode.length = out.encodedSize := by
  rw [encode, List.length_append, Vlq.length_encode, Script.length_compress, encodedSize]

/-- The size of the record of a coin is the number of its bytes. -/
theorem Coin.length_encode (c : Coin) : c.encode.length = c.encodedSize := by
  rw [encode, List.length_append, Vlq.length_encode, TxOut.length_encode, encodedSize]

/-- The size of an entry is the number of its bytes. -/
theorem SpentOutput.length_encode (s : SpentOutput) : s.encode.length = s.encodedSize := by
  rw [encode, encodeAs, List.length_append, List.length_append, Vlq.length_encode, reserved,
    apply_ite List.length, Vlq.length_encode, TxOut.length_encode, encodedSize]
  rfl

/-- What is counted in advance is what is written.  Integers are written through a buffer for their width
and counted in words of that width, and scripts are counted by tests in pairs and written by tests one
after the other. -/
theorem sizes_predicted :
    (∀ (bits : ℕ) (n : BitVec bits), 0 < bits → ∀ bytes,
      Vlq.append bits bytes n.toNat = bytes ++ Vlq.encode n.toNat ∧
        (Vlq.encode n.toNat).length = Vlq.size n.toNat ∧ Vlq.sizeWord n = Vlq.size n.toNat) ∧
    (∀ script, (Script.compress script).length = Script.compressedSize script ∧
      Script.sizeByTests script = Script.compressedSize script ∧
        (script.length + 6 < 2 ^ 64 → ∀ bytes,
          Script.write bytes script = bytes ++ Script.compress script)) ∧
    (∀ out : TxOut, out.encode.length = out.encodedSize) ∧
    (∀ c : Coin, c.encode.length = c.encodedSize) ∧
    ∀ s : SpentOutput, s.encode.length = s.encodedSize := by
  refine ⟨?_, ?_, TxOut.length_encode, Coin.length_encode, SpentOutput.length_encode⟩
  · intro bits n hbits bytes
    exact ⟨Vlq.append_eq hbits n.isLt bytes, Vlq.length_encode _, Vlq.sizeWord_eq n⟩
  · intro script
    exact ⟨Script.length_compress script, Script.sizeByTests_eq script, Script.write_eq⟩

/-- The largest number of eight bits takes the two bytes of the buffer, a script that is one byte away from
a payment to the hash of a key its length and its bytes, and at height 0 no reserved number is
counted. -/
theorem sizes_predicted_extremes :
    Vlq.append 8 [0xee] 255 = [0xee, 0x80, 0x7f] ∧ Vlq.sizeWord (255#8) = 2 ∧
    Script.write [] largestCoin.out.script = 31 :: largestCoin.out.script ∧
    Script.sizeByTests largestCoin.out.script = 26 ∧
    largestCoin.encode.length = 41 ∧ lowestOutput.encode.length = 23 := by
  obtain ⟨hint, hscript, -, hcoin, hspent⟩ := sizes_predicted
  obtain ⟨hwritten, hcounted, hword⟩ := hint 8 (255#8) (by decide) [0xee]
  obtain ⟨hlength, htests, hbytes⟩ := hscript largestCoin.out.script
  have hcompressed : Script.compress largestCoin.out.script = 31 :: largestCoin.out.script := by cbv
  have hnumber : Vlq.encode (255#8).toNat = [0x80, 0x7f] := by cbv
  refine ⟨?_, ?_, ?_, ?_, ?_, ?_⟩
  · rw [hnumber] at hwritten
    exact hwritten
  · rw [hword, ← hcounted, hnumber]
    rfl
  · rw [hbytes (by decide), hcompressed, List.nil_append]
  · rw [htests, ← hlength, hcompressed]
    rfl
  · rw [hcoin]
    cbv
  · rw [hspent]
    cbv

end CoinLedger
