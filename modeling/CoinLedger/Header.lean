import CoinLedger.Error

/-!
# Record headers

Every stored output says in which block it was created and whether a coinbase transaction
created it.  Both go into one number, the header code: twice the height, plus one for a coinbase.
-/

namespace CoinLedger

/-- Where an output was created. -/
structure Header where
  /-- The height of the block. -/
  height : UInt32
  /-- Whether the transaction is a coinbase. -/
  coinbase : Bool
  deriving DecidableEq

namespace Header

/-- The header code. -/
def code (h : Header) : Nat := h.height.toNat * 2 + h.coinbase.toNat

/-- The height that a header code carries; `read` is the number of bytes read when it fails. -/
def heightOfCode (code read : Nat) : Except Error UInt32 :=
  let height := code / 2
  if height < UInt32.size then .ok (UInt32.ofNat height)
  else .error ⟨.heightTooLarge height, read⟩

/-- The header with a given code; `read` is the number of bytes read when it fails. -/
def ofCode (code read : Nat) : Except Error Header :=
  match heightOfCode code read with
  | .error e => .error e
  | .ok height => .ok ⟨height, decide (code % 2 = 1)⟩

end Header

end CoinLedger
