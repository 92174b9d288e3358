import CoinLedger.Error

/-!
# Hexadecimal text

Two digits to a byte, the high half first.  Writing uses lower case; reading takes both cases
and reports the first byte that is no digit before it complains about an odd length.
-/

namespace CoinLedger.Hex

/-- The digit of a half byte, for `d < 16`. -/
def digit (d : Nat) : UInt8 := UInt8.ofNat (if d < 10 then 48 + d else 87 + d)

/-- The value of a digit of either case. -/
def digitValue? (b : UInt8) : Option Nat :=
  if 48 ≤ b ∧ b ≤ 57 then some (b.toNat - 48)
  else if 97 ≤ b ∧ b ≤ 102 then some (b.toNat - 87)
  else if 65 ≤ b ∧ b ≤ 70 then some (b.toNat - 55)
  else none

/-- Whether a byte is a digit. -/
def isDigit (b : UInt8) : Bool := (digitValue? b).isSome

/-- The two digits of a byte. -/
def digits (b : UInt8) : Text := [digit (b.toNat / 16), digit (b.toNat % 16)]

/-- The digits of a byte string. -/
def encode (data : Bytes) : Text := data.flatMap digits

/-- The byte of two digits. -/
def byte (hi lo : UInt8) : UInt8 :=
  UInt8.ofNat ((digitValue? hi).getD 0 * 16 + (digitValue? lo).getD 0)

/-- The bytes of a row of digits, two digits to a byte; a last single digit is dropped. -/
def pack : Text → Bytes
  | [] => []
  | [_] => []
  | hi :: lo :: rest => byte hi lo :: pack rest

/-- A row of digits gives half as many bytes. -/
theorem length_pack : ∀ t : Text, (pack t).length = t.length / 2
  | [] => rfl
  | [_] => by simp [pack]
  | _ :: _ :: rest => by
    simp only [pack, List.length_cons, length_pack rest]
    omega

/-- Whether a text is an even number of digits. -/
def isHex (t : Text) : Bool := t.length % 2 == 0 && t.all isDigit

/-- The bytes that a text denotes. -/
def decode (t : Text) : Except Error Bytes :=
  match t.findIdx? (fun b => !isDigit b) with
  | some i => .error ⟨.hexDigit, i⟩
  | none => if t.length % 2 = 0 then .ok (pack t) else .error ⟨.hexOddLength, t.length⟩

end CoinLedger.Hex
