import CoinLedger.SpentOutput

/-!
# Writing a spend journal

The writer remembers the header code of the last entry that it wrote in full in the current
transaction.  An entry with the same code is written under the header code 0, and any other in
full.  A true header code of 0 behind another one would be read as a repeat, so it is refused.
-/

namespace CoinLedger.SpendJournal

/-- A journal being written. -/
structure Writer where
  /-- The bytes written so far. -/
  bytes : Bytes
  /-- The header code to which a 0 refers. -/
  remembered : Option Nat
  deriving DecidableEq

namespace Writer

/-- The writer of an empty journal. -/
def empty : Writer := ⟨[], none⟩

/-- Forgets the remembered header code at the start of a transaction. -/
def nextTransaction (w : Writer) : Writer := { w with remembered := none }

/-- Offers an entry to a writer, which writes it or refuses it: the outcome and the writer
afterwards. -/
def offer (w : Writer) (s : SpentOutput) : Except Error Unit × Writer :=
  let code := s.header.code
  match w.remembered with
  | none => (.ok (), ⟨w.bytes ++ s.encodeAs code, some code⟩)
  | some last =>
    if last = code then (.ok (), ⟨w.bytes ++ s.encodeAs 0, some last⟩)
    else if code = 0 then (.error ⟨.headerAmbiguous last, 0⟩, w)
    else (.ok (), ⟨w.bytes ++ s.encodeAs code, some code⟩)

/-- Writes an entry: the writer afterwards, unless the entry is refused. -/
def write (w : Writer) (s : SpentOutput) : Except Error Writer :=
  match w.offer s with
  | (.ok (), next) => .ok next
  | (.error e, _) => .error e

/-- Writes entries one after the other, up to the first that is refused. -/
def writeAll (w : Writer) : List SpentOutput → Except Error Writer
  | [] => .ok w
  | s :: rest =>
    match w.write s with
    | .error e => .error e
    | .ok w => w.writeAll rest

/-- Writes one transaction after the other: `counts` says how many of the entries belong to
each. -/
def writeTransactions (w : Writer) : List Nat → List SpentOutput → Except Error Writer
  | [], _ => .ok w
  | count :: counts, entries =>
    match w.nextTransaction.writeAll (entries.take count) with
    | .error e => .error e
    | .ok w => w.writeTransactions counts (entries.drop count)

end Writer

end CoinLedger.SpendJournal
