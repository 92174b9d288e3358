import CoinLedger.Amount
import CoinLedger.Script

/-!
# Transaction outputs

An output pairs an amount with a locking script.  Its stored form is the amount code as a
variable-length integer of at most 128 bits, followed by the compressed script.
-/

namespace CoinLedger

/-- An output of a transaction. -/
structure TxOut where
  /-- The amount in base units. -/
  amount : UInt64
  /-- The locking script. -/
  script : Bytes
  deriving DecidableEq

namespace TxOut

/-- The stored form of an output. -/
def encode (out : TxOut) : Bytes :=
  Vlq.encode (Amount.compress out.amount) ++ Script.compress out.script

/-- The length of the stored form. -/
def encodedSize (out : TxOut) : Nat :=
  Vlq.size (Amount.compress out.amount) + Script.compressedSize out.script

/-- Reads the rest of an output behind the `offset` bytes of its amount code.  The length of the
script is settled first, then the amount, then the script itself. -/
def decodeScript (code offset : Nat) (rest : Bytes) : Except Error (Decoded TxOut) :=
  match Script.readSize rest with
  | .error e =>
    if e.kind = .malformed then .error ⟨.endsAfterScriptSize, offset⟩ else .error (e.after offset)
  | .ok size =>
    if rest.length < size then .error ⟨.endsAfterScriptSize, offset⟩
    else
      match Amount.decompress code with
      | .error e => .error (e.after offset)
      | .ok amount =>
        match Script.decompress (rest.take size) with
        | .error e => .error (e.after offset)
        | .ok script => .ok ⟨⟨amount, script⟩, offset + size⟩

/-- Reads an output from the front of the data. -/
def decode (data : Bytes) : Except Error (Decoded TxOut) :=
  match Vlq.decode 128 data with
  | .error e =>
    if e.kind = .malformed then .error ⟨.endsAfterAmount, data.length⟩ else .error e
  | .ok code =>
    if data.length ≤ code.bytesRead then .error ⟨.endsAfterAmount, code.bytesRead⟩
    else decodeScript code.value code.bytesRead (data.drop code.bytesRead)

end TxOut

end CoinLedger
