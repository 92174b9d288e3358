import CoinLedger.Cursor

/-!
# Variable-length integers

A number is written in groups of seven bits, the most significant group first; every byte but
the last has bit 7 set.  Each group after the first stands for one more than it says, so that
every number has exactly one written form: 127 is `7F`, 128 is `80 00`, 16511 is `FF 7F` and
16512 is `80 80 00`.

`encode` writes and `size` predicts the length; `fill` writes the same bytes backwards into a
buffer of fixed size.  `decode bits` reads a number of at most `bits` bits and refuses larger
ones.
-/

namespace CoinLedger.Vlq

/-- The most bytes that a number of `bits` bits can take. -/
def maxBytes (bits : Nat) : Nat := (bits + 6) / 7

/-- The number of bytes of `n` in written form. -/
def size (n : Nat) : Nat := if n ≤ 127 then 1 else size (n / 128 - 1) + 1
termination_by n

/-- The groups of `n` with bit 7 set in each, as they stand before the last group. -/
def leading (n : Nat) : Bytes :=
  if n ≤ 127 then [UInt8.ofNat (n + 128)]
  else leading (n / 128 - 1) ++ [UInt8.ofNat (n % 128 + 128)]
termination_by n

/-- The written form of `n`. -/
def encode (n : Nat) : Bytes :=
  if n ≤ 127 then [UInt8.ofNat n] else leading (n / 128 - 1) ++ [UInt8.ofNat (n % 128)]

/-- Writes `n` backwards in front of `tail` into a buffer with `room` free cells, adding `mark`
to the first byte written: the cells left and the bytes, or `none` if the buffer is too small. -/
def fill (room n mark : Nat) (tail : Bytes) : Option (Nat × Bytes) :=
  match room with
  | 0 => none
  | room + 1 =>
    let written := UInt8.ofNat (n % 128 + mark) :: tail
    if n ≤ 127 then some (room, written) else fill room (n / 128 - 1) 128 written

/-- Appends `n` to `out` through a buffer for numbers of `bits` bits. -/
def append (bits : Nat) (out : Bytes) (n : Nat) : Bytes :=
  match fill (maxBytes bits) n 0 [] with
  | some (_, written) => out ++ written
  | none => out

/-- The largest number of `bits` bits. -/
def largest (bits : Nat) : Nat := 1 <<< bits - 1

/-- Goes on reading a number after `read` bytes that gave `acc`. -/
def decodeFrom (bits : Nat) : Bytes → Nat → Nat → Except Error (Decoded Nat)
  | [], read, _ => .error ⟨if read = 0 then .integerMissing else .integerUnterminated, read⟩
  | b :: rest, read, acc =>
    if acc >>> (bits - 7) ≠ 0 then .error ⟨.integerTooWide bits, read⟩
    else
      let value := acc * 128 + b.toNat % 128
      if b.toNat < 128 then .ok ⟨value, read + 1⟩
      else if value = largest bits then .error ⟨.integerTooWide bits, read + 1⟩
      else decodeFrom bits rest (read + 1) (value + 1)

/-- Reads a number of at most `bits` bits from the front of the data.  The test before each byte
keeps the next group inside `bits` bits, the test after it the added one. -/
def decode (bits : Nat) (data : Bytes) : Except Error (Decoded Nat) := decodeFrom bits data 0 0

end CoinLedger.Vlq
