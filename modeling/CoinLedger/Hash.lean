import CoinLedger.Hex

/-!
# Hashes

A hash is 32 bytes, kept in the order in which they are hashed and stored: the least significant
byte first.  As text a hash is shown the other way round, most significant byte first, and
hashes are ordered as the numbers that they stand for, which is the order of their texts.
-/

namespace CoinLedger

/-- A 256-bit hash in storage order. -/
structure Hash where
  /-- The bytes, least significant first. -/
  bytes : Bytes
  /-- There are 32 of them. -/
  length_bytes : bytes.length = 32
  deriving DecidableEq

namespace Hash

/-- The hash of 32 zero bytes. -/
def zero : Hash := ⟨List.replicate 32 0, List.length_replicate⟩

/-- The hash with the given bytes in storage order, if there are 32 of them. -/
def ofBytes? (data : Bytes) : Option Hash := if h : data.length = 32 then some ⟨data, h⟩ else none

/-- Whether every byte is zero. -/
def isZero (h : Hash) : Bool := h.bytes.all (· == 0)

/-- The text of a hash: 64 lower-case digits, most significant byte first. -/
def toText (h : Hash) : Text := Hex.encode h.bytes.reverse

/-- The hash whose text is the given 64 digits. -/
def ofDigits (t : Text) (h : t.length = 64) : Hash :=
  ⟨(Hex.pack t).reverse, by rw [List.length_reverse, Hex.length_pack, h]⟩

/-- A text without one leading `0x` or `0X`. -/
def dropMarker : Text → Text
  | 48 :: 120 :: rest => rest
  | 48 :: 88 :: rest => rest
  | t => t

/-- Reads the text of a hash, with or without a leading `0x`.  A byte that is no digit is
reported at the first digit of its pair, counted after the marker. -/
def ofText (t : Text) : Except Error Hash :=
  let digits := dropMarker t
  if h : digits.length = 64 then
    match digits.findIdx? (fun b => !Hex.isDigit b) with
    | some i => .error ⟨.hashDigit, i / 2 * 2⟩
    | none => .ok (ofDigits digits h)
  else .error ⟨.hashLength digits.length, 0⟩

/-- The order of two byte strings by the first byte in which they differ. -/
def compareBytes : Bytes → Bytes → Ordering
  | a :: as, b :: bs => if a < b then .lt else if b < a then .gt else compareBytes as bs
  | [], [] => .eq
  | [], _ :: _ => .lt
  | _ :: _, [] => .gt

/-- The numeric order of hashes, decided by the most significant byte that differs. -/
def compare (a b : Hash) : Ordering := compareBytes a.bytes.reverse b.bytes.reverse

instance : Ord Hash := ⟨compare⟩

end Hash

end CoinLedger
