import Mathlib
import CoinLedger.OutPoint
import CoinLedger.Proofs.Hash
import CoinLedger.Proofs.Vlq

/-!
# Keys of outpoints

`key_injective`: different outpoints have different keys.  The hash in a key takes 32 bytes, so it ends
where the index starts (`hash_append_eq_key_iff`), and the index is determined by its written form.
-/

namespace CoinLedger.OutPoint

/-- A hash with something behind it is a key exactly if these are the two parts of the key. -/
lemma hash_append_eq_key_iff {txid : Hash} {code : Bytes} {o : OutPoint} :
    txid.bytes ++ code = o.key ↔ txid = o.txid ∧ code = Vlq.encode o.index.toNat := by
  constructor
  · intro h
    have hlength : txid.bytes.length = o.txid.bytes.length := by
      rw [txid.length_bytes, o.txid.length_bytes]
    obtain ⟨hbytes, hcode⟩ := List.append_inj h hlength
    exact ⟨Hash.bytes_injective hbytes, hcode⟩
  · rintro ⟨rfl, rfl⟩
    rfl

/-- Different outpoints have different keys. -/
theorem key_injective : Function.Injective key := by
  rintro ⟨txid, index⟩ ⟨txid', index'⟩ h
  obtain ⟨htxid, hcode⟩ := hash_append_eq_key_iff.mp h
  have hindex : index = index' := UInt32.toNat_inj.mp (Vlq.encode_injective hcode)
  exact congrArg₂ OutPoint.mk htxid hindex

end CoinLedger.OutPoint
