import CoinLedger.SpentOutput

/-!
# Reading a spend journal

The reader remembers the last full header code of the current transaction and puts it in the
place of a header code 0.  Failures count bytes from the start of the journal and leave the
reader where it is.
-/

namespace CoinLedger.SpendJournal

/-- A journal being read. -/
structure Reader where
  /-- The place in the journal. -/
  cursor : Cursor
  /-- The header code to which a 0 refers. -/
  remembered : Option Nat
  deriving DecidableEq

namespace Reader

/-- The reader of a journal. -/
def start (data : Bytes) : Reader := ⟨Cursor.start data, none⟩

/-- Forgets the remembered header code at the start of a transaction. -/
def nextTransaction (r : Reader) : Reader := { r with remembered := none }

/-- The number of bytes read. -/
def pos (r : Reader) : Nat := r.cursor.pos

/-- Whether the whole journal has been read. -/
def atEnd (r : Reader) : Bool := r.cursor.atEnd

/-- Reads the next entry. -/
def read (r : Reader) : Except Error SpentOutput × Reader :=
  match SpentOutput.decodeAfter r.remembered r.cursor.rest with
  | (.ok d, remembered) => (.ok d.value, ⟨r.cursor.advance d.bytesRead, remembered⟩)
  | (.error e, remembered) => (.error (e.after r.pos), ⟨r.cursor, remembered⟩)

/-- Reads `count` more entries of a journal with `wanted` entries, of which `found` have been
read; an entry that is read goes in front of those read before it. -/
def readEntries (wanted : Nat) : Nat → Reader → List SpentOutput →
    Except Error (Reader × List SpentOutput)
  | 0, r, found => .ok (r, found)
  | count + 1, r, found =>
    if r.atEnd then .error ⟨.journalEnded found.length wanted, r.pos⟩
    else
      match r.read with
      | (.error e, _) => .error e
      | (.ok s, r) => readEntries wanted count r (s :: found)

/-- Reads one transaction after the other: `counts` says how many entries each has. -/
def readTransactions (wanted : Nat) : List Nat → Reader → List SpentOutput →
    Except Error (Reader × List SpentOutput)
  | [], r, found => .ok (r, found)
  | count :: counts, r, found =>
    match readEntries wanted count r.nextTransaction found with
    | .error e => .error e
    | .ok (r, found) => readTransactions wanted counts r found

end Reader

end CoinLedger.SpendJournal
