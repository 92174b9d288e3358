import CoinLedger.Error

/-!
# Reading from the front of a byte string

A decoder that leaves the bytes after its record to the caller returns a `Decoded` value: the
value and the number of bytes that it occupied.  A `Cursor` walks over a byte string by such
counts.
-/

namespace CoinLedger

/-- A decoded value and the number of bytes that it occupied. -/
structure Decoded (α : Type) where
  /-- The value. -/
  value : α
  /-- The number of bytes that it occupied. -/
  bytesRead : Nat
  deriving DecidableEq

/-- A place in a byte string: how many bytes lie before it, and the bytes after it. -/
structure Cursor where
  /-- The number of bytes before the cursor. -/
  pos : Nat
  /-- The bytes from the cursor on. -/
  rest : Bytes
  deriving DecidableEq

namespace Cursor

/-- The cursor at the start of a byte string. -/
def start (data : Bytes) : Cursor := ⟨0, data⟩

/-- The number of bytes after the cursor. -/
def remaining (c : Cursor) : Nat := c.rest.length

/-- Whether the cursor is at the end. -/
def atEnd (c : Cursor) : Bool := c.rest.isEmpty

/-- Moves forward by `n` bytes, and no further than the end. -/
def advance (c : Cursor) (n : Nat) : Cursor := ⟨c.pos + min n c.remaining, c.rest.drop n⟩

/-- Moving does not change how many bytes there are in all. -/
theorem pos_add_remaining_advance (c : Cursor) (n : Nat) :
    (c.advance n).pos + (c.advance n).remaining = c.pos + c.remaining := by
  simp only [advance, remaining, List.length_drop]
  omega

/-- Reads a value at the cursor with `decode` and moves behind it; a failure counts from the
start of the byte string. -/
def read {α : Type} (decode : Bytes → Except Error (Decoded α)) (c : Cursor) :
    Except Error (α × Cursor) :=
  match decode c.rest with
  | .ok d => .ok (d.value, c.advance d.bytesRead)
  | .error e => .error (e.after c.pos)

end Cursor

end CoinLedger
