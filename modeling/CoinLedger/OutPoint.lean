import CoinLedger.Hash
import CoinLedger.Vlq

/-!
# Outpoints

An outpoint names an output by the hash of its transaction and its index there.  The key under
which a coin is stored is the hash in storage order, followed by the index as a variable-length
integer; an index of more than 32 bits, or bytes behind it, make no key.
-/

namespace CoinLedger

/-- The place of an output. -/
structure OutPoint where
  /-- The hash of the transaction. -/
  txid : Hash
  /-- The index among its outputs. -/
  index : UInt32
  deriving DecidableEq

namespace OutPoint

/-- The outpoint that no output has: the hash zero and the largest index. -/
def null : OutPoint := ⟨Hash.zero, 0xFFFFFFFF⟩

/-- Whether an outpoint is the null outpoint. -/
def isNull (o : OutPoint) : Bool := o.txid.isZero && o.index == 0xFFFFFFFF

/-- The text of an outpoint: hash, colon, index. -/
def toText (o : OutPoint) : Text := o.txid.toText ++ Text.ofString ":" ++ Text.decimal o.index.toNat

/-- The order of outpoints: by hash, then by index. -/
def compare (a b : OutPoint) : Ordering :=
  match Hash.compare a.txid b.txid with
  | .eq => if a.index < b.index then .lt else if b.index < a.index then .gt else .eq
  | order => order

instance : Ord OutPoint := ⟨compare⟩

/-- The key of an outpoint. -/
def key (o : OutPoint) : Bytes := o.txid.bytes ++ Vlq.encode o.index.toNat

/-- Reads the key of an outpoint. -/
def ofKey (key : Bytes) : Except Error OutPoint :=
  match Hash.ofBytes? (key.take 32) with
  | none => .error ⟨.outPointKeyShort, key.length⟩
  | some txid =>
    if key.length = 32 then .error ⟨.outPointKeyShort, key.length⟩
    else
      match Vlq.decode 64 (key.drop 32) with
      | .error e => .error (e.after 32)
      | .ok index =>
        if UInt32.size ≤ index.value then .error ⟨.outPointIndexTooLarge, 32 + index.bytesRead⟩
        else if 32 + index.bytesRead = key.length then .ok ⟨txid, UInt32.ofNat index.value⟩
        else .error ⟨.outPointKeyTrailing, 32 + index.bytesRead⟩

end OutPoint

end CoinLedger
