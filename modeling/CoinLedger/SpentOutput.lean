import CoinLedger.Coin

/-!
# Spent outputs

A spent output is what has to be kept of a coin to restore it.  Its entry is like the record of
a coin, with a reserved number between header code and output when the code carries a height
above 0; the reserved number is written as 0 and skipped on reading.

Inside a transaction an entry may be written with the header code 0 in place of a repeat of the
header before it.  `encodeAs` writes an entry with any header code, and `decodeAfter` reads one
with the header code that it may repeat.
-/

namespace CoinLedger

/-- An output consumed by an input of a block. -/
structure SpentOutput where
  /-- Where the output was created. -/
  header : Header
  /-- The output. -/
  out : TxOut
  deriving DecidableEq

namespace SpentOutput

/-- The entry that restores a coin. -/
def ofCoin (c : Coin) : SpentOutput := ⟨c.header, c.out⟩

/-- The coin that an entry restores. -/
def toCoin (s : SpentOutput) : Coin := ⟨s.header, s.out⟩

/-- Whether an entry with this header code has a reserved number. -/
def hasReserved (code : Nat) : Bool := 0 < code / 2

/-- The bytes of the reserved number under a header code. -/
def reserved (code : Nat) : Bytes := if hasReserved code then Vlq.encode 0 else []

/-- The entry of a spent output under the header code `code`. -/
def encodeAs (code : Nat) (s : SpentOutput) : Bytes :=
  Vlq.encode code ++ reserved code ++ s.out.encode

/-- The entry of a spent output on its own. -/
def encode (s : SpentOutput) : Bytes := encodeAs s.header.code s

/-- The length of the entry on its own. -/
def encodedSize (s : SpentOutput) : Nat :=
  Vlq.size s.header.code + (if hasReserved s.header.code then Vlq.size 0 else 0) +
    s.out.encodedSize

/-- Reads a header code and the reserved number that it brings, up to the output. -/
def decodeHeader (data : Bytes) : Except Error (Nat × Cursor) :=
  if data = [] then .error ⟨.recordMissing, 0⟩
  else
    match (Cursor.start data).read (Vlq.decode 64) with
    | .error e => .error e
    | .ok (code, cursor) =>
      if cursor.atEnd then .error ⟨.endsAfterHeader, cursor.pos⟩
      else if hasReserved code then
        match cursor.read (Vlq.decode 64) with
        | .error e => .error e
        | .ok (_, cursor) =>
          if cursor.atEnd then .error ⟨.endsAfterReserved, cursor.pos⟩ else .ok (code, cursor)
      else .ok (code, cursor)

/-- The header code for which `code` stands behind the header code `remembered`. -/
def repeated (remembered : Option Nat) (code : Nat) : Nat :=
  if code = 0 then remembered.getD 0 else code

/-- The header code to remember behind an entry with the header code `code`. -/
def remember (remembered : Option Nat) (code : Nat) : Option Nat :=
  if code = 0 then remembered else some code

/-- Reads the output of an entry with the header code `code`. -/
def decodeOutput (code : Nat) (cursor : Cursor) : Except Error (Decoded SpentOutput) :=
  match Header.ofCode code cursor.pos with
  | .error e => .error e
  | .ok header =>
    match cursor.read TxOut.decode with
    | .error e => .error e
    | .ok (out, cursor) => .ok ⟨⟨header, out⟩, cursor.pos⟩

/-- Reads an entry from the front of the data behind the header code `remembered`, and gives the
header code to remember next: a full header code is remembered as soon as it is read. -/
def decodeAfter (remembered : Option Nat) (data : Bytes) :
    Except Error (Decoded SpentOutput) × Option Nat :=
  match decodeHeader data with
  | .error e => (.error e, remembered)
  | .ok (code, cursor) =>
    (decodeOutput (repeated remembered code) cursor, remember remembered code)

/-- Reads an entry on its own from the front of the data. -/
def decode (data : Bytes) : Except Error (Decoded SpentOutput) := (decodeAfter none data).1

end SpentOutput

end CoinLedger
