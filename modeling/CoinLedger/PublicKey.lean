import CoinLedger.Error
import CoinLedger.Secp256k1

/-!
# Public keys

A key is a point of secp256k1.  Its short form is 33 bytes, `02` or `03` for an even or odd `y`
followed by `x`; its full form is 65 bytes, `04` followed by `x` and `y`.  Coordinates are 32
bytes, most significant first.
-/

namespace CoinLedger.PublicKey

/-- The number that a byte string denotes, most significant byte first. -/
def toNat (data : Bytes) : Nat := data.foldl (fun n b => n * 256 + b.toNat) 0

/-- The last `count` bytes of a number, most significant first. -/
def ofNat : (count n : Nat) → Bytes
  | 0, _ => []
  | count + 1, n => ofNat count (n / 256) ++ [UInt8.ofNat (n % 256)]

/-- The parity of `y` for which the first byte of a short key stands. -/
def parity? (lead : UInt8) : Option Bool :=
  if lead = 2 then some false else if lead = 3 then some true else none

/-- The full form of the short key `lead` followed by the 32 bytes `x`. -/
def expand (lead : UInt8) (x : Bytes) : Except Error Bytes :=
  match parity? lead with
  | none => .error ⟨.keyPrefix, 0⟩
  | some odd =>
    match Secp256k1.lift? (toNat x) odd with
    | some y => .ok (4 :: (x ++ ofNat 32 y))
    | none => .error ⟨.keyOffCurve, 0⟩

/-- Whether a byte string is the short or the full form of a point. -/
def isValid (key : Bytes) : Bool :=
  match key with
  | [] => false
  | lead :: coordinates =>
    if coordinates.length = 32 then
      match parity? lead with
      | some odd => (Secp256k1.lift? (toNat coordinates) odd).isSome
      | none => false
    else if coordinates.length = 64 then
      lead == 4 && Secp256k1.isPoint (toNat (coordinates.take 32)) (toNat (coordinates.drop 32))
    else false

end CoinLedger.PublicKey
