import CoinLedger.Hash

/-!
# Tip sets

The hashes of the tips are stored as one text: a bracketed list with a bracketed list of 32
decimal byte values for each hash, in storage order and without any white space.

Reading runs an automaton over the text.  A `State` is what has been read so far; `step` takes
one byte, and a byte without a step is where reading stops, so a failure counts exactly the
bytes that some tip set starts with.
-/

namespace CoinLedger.TipSet

open Text (comma)

/-- The byte that opens a list. -/
def opening : UInt8 := 91

/-- The byte that closes a list. -/
def closing : UInt8 := 93

/-- The members of a list with commas between them. -/
def separated : List Text → Text
  | [] => []
  | [t] => t
  | t :: rest => t ++ [comma] ++ separated rest

/-- A list in brackets. -/
def bracketed (members : List Text) : Text := [opening] ++ separated members ++ [closing]

/-- The text of one hash. -/
def formatHash (h : Hash) : Text := bracketed (h.bytes.map (fun b => Text.decimal b.toNat))

/-- The text of a tip set. -/
def format (tips : List Hash) : Text := bracketed (tips.map formatHash)

/-- What has been read of a tip set. -/
inductive State where
  /-- nothing -/
  | start
  /-- the opening bracket of the set -/
  | opened
  /-- some hashes and a comma -/
  | hashWanted (tips : List Hash)
  /-- some hashes and, of the next one, some values and the start of another: `none` before its
  first digit, else its value so far -/
  | inHash (tips : List Hash) (bytes : Bytes) (value : Option Nat)
  /-- some hashes, the last of them closed -/
  | hashClosed (tips : List Hash)
  /-- the whole set -/
  | closed (tips : List Hash)

/-- Takes a digit into the value so far. -/
def addDigit (value : Option Nat) (digit : Nat) : Except TipFault Nat :=
  match value with
  | none => .ok digit
  | some 0 => .error .leadingZero
  | some v => if v * 10 + digit ≤ 255 then .ok (v * 10 + digit) else .error .byteTooLarge

/-- The state behind a hash whose values are all read and whose bracket is closed. -/
def closeHash (tips : List Hash) (bytes : Bytes) : Except TipFault State :=
  match Hash.ofBytes? bytes with
  | some hash => .ok (.hashClosed (tips ++ [hash]))
  | none => .error (.hashTooShort bytes.length)

/-- The state behind a byte that is no digit, after the values `bytes` of a hash. -/
def endValue (tips : List Hash) (bytes : Bytes) (b : UInt8) : Except TipFault State :=
  if b = closing then closeHash tips bytes
  else if b = comma then
    if bytes.length = 32 then .error .hashTooLong else .ok (.inHash tips bytes none)
  else .error (.expected (if bytes.length = 32 then closing else comma))

/-- Reads one byte of a tip set. -/
def step (state : State) (b : UInt8) : Except TipFault State :=
  match state with
  | .start => if b = opening then .ok .opened else .error (.expected opening)
  | .opened =>
    if b = closing then .ok (.closed [])
    else if b = opening then .ok (.inHash [] [] none)
    else .error (.expected opening)
  | .hashWanted tips =>
    if b = opening then .ok (.inHash tips [] none) else .error (.expected opening)
  | .inHash tips bytes value =>
    if Text.isDigit b then
      match addDigit value (Text.digitValue b) with
      | .ok v => .ok (.inHash tips bytes (some v))
      | .error f => .error f
    else
      match value with
      | none => .error .expectedByte
      | some v => endValue tips (bytes ++ [UInt8.ofNat v]) b
  | .hashClosed tips =>
    if b = comma then .ok (.hashWanted tips)
    else if b = closing then .ok (.closed tips)
    else .error (.expected closing)
  | .closed _ => .error .trailing

/-- What is wrong with a text that ends in a state, or the tips if it is complete. -/
def finish : State → Except TipFault (List Hash)
  | .start => .error (.endExpected opening)
  | .opened => .error (.endExpected opening)
  | .hashWanted _ => .error (.endExpected opening)
  | .inHash _ _ none => .error .endExpectedByte
  | .inHash _ bytes (some _) =>
    .error (.endExpected (if bytes.length + 1 = 32 then closing else comma))
  | .hashClosed _ => .error (.endExpected closing)
  | .closed tips => .ok tips

/-- Reads the rest of a tip set behind `read` bytes that led to a state. -/
def run (state : State) (read : Nat) : Text → Except Error (List Hash)
  | [] =>
    match finish state with
    | .ok tips => .ok tips
    | .error f => .error ⟨.tipSet f, read⟩
  | b :: rest =>
    match step state b with
    | .ok state => run state (read + 1) rest
    | .error f => .error ⟨.tipSet f, read⟩

/-- Reads the text of a tip set. -/
def parse (t : Text) : Except Error (List Hash) := run .start 0 t

end CoinLedger.TipSet
