import CoinLedger.Header
import CoinLedger.TxOut

/-!
# Coins

A coin is an unspent output with its header.  Its record is the header code as a variable-length
integer of at most 64 bits, followed by the output, and the record has to fill the stored bytes.
-/

namespace CoinLedger

/-- An unspent output. -/
structure Coin where
  /-- Where the output was created. -/
  header : Header
  /-- The output. -/
  out : TxOut
  deriving DecidableEq

namespace Coin

/-- The record of a coin. -/
def encode (c : Coin) : Bytes := Vlq.encode c.header.code ++ c.out.encode

/-- The length of the record. -/
def encodedSize (c : Coin) : Nat := Vlq.size c.header.code + c.out.encodedSize

/-- Reads a coin from a record that fills the data. -/
def decode (data : Bytes) : Except Error Coin :=
  if data = [] then .error ⟨.recordMissing, 0⟩
  else
    match (Cursor.start data).read (Vlq.decode 64) with
    | .error e => .error e
    | .ok (code, cursor) =>
      if cursor.atEnd then .error ⟨.endsAfterHeader, cursor.pos⟩
      else
        match Header.ofCode code cursor.pos with
        | .error e => .error e
        | .ok header =>
          match cursor.read TxOut.decode with
          | .error e => .error e
          | .ok (out, cursor) =>
            if cursor.atEnd then .ok ⟨header, out⟩
            else .error ⟨.coinTrailing cursor.remaining, cursor.pos⟩

end Coin

end CoinLedger
