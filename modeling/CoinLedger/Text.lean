/-!
# Bytes and text

Records and texts are byte strings: a text is held as its UTF-8 bytes, so offsets and lengths
count bytes.  This module has the few text operations that the rest of the library shares:
decimal numerals in both directions (`decimal`, `readDecimal?`), ASCII white space (`trim`),
ASCII letter case (`equalsIgnoringCase`), fields between separators (`fields`), the lines of
a file (`lines`) and quotation (`quoted`).  Bytes above 127 are neither white space nor letters.
-/

namespace CoinLedger

/-- A byte string. -/
abbrev Bytes := List UInt8

/-- A text, held as its UTF-8 bytes. -/
abbrev Text := List UInt8

namespace Text

/-- The UTF-8 bytes of a string. -/
def ofString (s : String) : Text := s.toUTF8.data.toList

/-- The byte that ends a line. -/
def newline : UInt8 := 10

/-- The byte between the items of a list. -/
def comma : UInt8 := 44

/-- The decimal digit `d`, for `d < 10`. -/
def digit (d : Nat) : UInt8 := UInt8.ofNat (48 + d)

/-- The decimal numeral of `n`, without leading zeros. -/
def decimal (n : Nat) : Text :=
  if n < 10 then [digit n] else decimal (n / 10) ++ [digit (n % 10)]
termination_by n

/-- Whether a byte is an ASCII decimal digit. -/
def isDigit (b : UInt8) : Bool := 48 ≤ b && b ≤ 57

/-- The value of a digit byte. -/
def digitValue (b : UInt8) : Nat := b.toNat - 48

/-- The number that a row of digit bytes denotes. -/
def numeralValue (t : Text) : Nat := t.foldl (fun n b => 10 * n + digitValue b) 0

/-- The number below `bound` that a text denotes: one or more digits and nothing else. -/
def readDecimal? (bound : Nat) (t : Text) : Option Nat :=
  if t ≠ [] ∧ t.all isDigit ∧ numeralValue t < bound then some (numeralValue t) else none

/-- ASCII white space: space, tab, line feed, vertical tab, form feed, carriage return. -/
def isSpace (b : UInt8) : Bool := b == 32 || (9 ≤ b && b ≤ 13)

/-- The text without the white space around it. -/
def trim (t : Text) : Text := ((t.dropWhile isSpace).reverse.dropWhile isSpace).reverse

/-- The lower-case form of an ASCII letter; other bytes stay. -/
def lower (b : UInt8) : UInt8 := if 65 ≤ b ∧ b ≤ 90 then b + 32 else b

/-- Equality up to the case of ASCII letters. -/
def equalsIgnoringCase (a b : Text) : Bool := a.map lower == b.map lower

/-- The fields of a text between the separators `sep`: one more than there are separators. -/
def fields (sep : UInt8) : Text → List Text
  | [] => [[]]
  | b :: rest =>
    if b = sep then [] :: fields sep rest
    else match fields sep rest with
      | [] => [[b]]
      | f :: fs => (b :: f) :: fs

/-- There is always a field. -/
theorem fields_ne_nil (sep : UInt8) (t : Text) : fields sep t ≠ [] := by
  cases t with
  | nil => simp [fields]
  | cons b rest =>
    simp only [fields]
    split
    · simp
    · split <;> simp

/-- The fields of two texts around a separator are those of the one and those of the other. -/
theorem fields_append_cons (sep : UInt8) (a b : Text) :
    fields sep (a ++ sep :: b) = fields sep a ++ fields sep b := by
  induction a with
  | nil => simp [fields]
  | cons c rest ih =>
    by_cases h : c = sep
    · simp [fields, h, ih]
    · simp only [List.cons_append, fields, h, if_false, ih]
      cases hf : fields sep rest with
      | nil => exact absurd hf (fields_ne_nil sep rest)
      | cons f fs => simp

/-- The two halves of a text around the first `sep`, or `none` without one. -/
def cut? (sep : UInt8) (t : Text) : Option (Text × Text) :=
  if sep ∈ t then some (t.takeWhile (· ≠ sep), (t.dropWhile (· ≠ sep)).drop 1) else none

/-- The lines of a file: a final line break ends the last line and opens none. -/
def lines (t : Text) : List Text :=
  let all := fields newline t
  if all.getLast? = some [] then all.dropLast else all

/-- A text in double quotes: quotes and backslashes in it get a backslash in front. -/
def quoted (t : Text) : Text :=
  [34] ++ t.flatMap (fun b => if b = 34 ∨ b = 92 then [92, b] else [b]) ++ [34]

end Text

end CoinLedger
