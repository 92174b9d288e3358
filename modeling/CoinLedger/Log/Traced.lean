import CoinLedger.Coin
import CoinLedger.Log.Entry
import CoinLedger.SpendJournal
import CoinLedger.TipSet

/-!
# Outcomes with their log entries

Reading a record that does not decode leaves entries in the log.  A `Traced` outcome carries
them, oldest first; whether they are shown is for the logger to decide.  The decoders of the
library are pure, and this module says for each of them what its failure leaves.
-/

namespace CoinLedger.Log

open Text (ofString)

/-- An outcome and the entries that were logged on the way to it. -/
structure Traced (α : Type) where
  /-- The outcome. -/
  outcome : Except Error α
  /-- The entries, oldest first. -/
  entries : List Entry

/-- An entry for finding faults. -/
def debugEntry (category : Categories) (message : Text) : Entry := ⟨.debug, category, message⟩

/-- What the search for a point with no success leaves. -/
def offCurveEntry : Entry := debugEntry .crypto (ofString "x coordinate is not on secp256k1")

/-- What a script with a key that is not on the curve leaves. -/
def scriptKeyEntry : Entry :=
  debugEntry .chain
    (ofString "compressed script carries an invalid key: " ++ Fault.keyOffCurve.message)

/-- The entries that a fault leaves where it arises. -/
def faultEntries : Fault → List Entry
  | .keyOffCurve => [offCurveEntry]
  | .scriptKeyInvalid => [offCurveEntry, scriptKeyEntry]
  | _ => []

namespace Traced

/-- An outcome that leaves no entry. -/
def silent {α : Type} (outcome : Except Error α) : Traced α := ⟨outcome, []⟩

/-- An outcome whose failure leaves the entries of its fault. -/
def ofOutcome {α : Type} (outcome : Except Error α) : Traced α :=
  match outcome with
  | .ok a => ⟨.ok a, []⟩
  | .error e => ⟨.error e, faultEntries e.fault⟩

/-- Adds an entry that depends on the error if the outcome is a failure. -/
def onError {α : Type} (t : Traced α) (entry : Error → Entry) : Traced α :=
  match t.outcome with
  | .ok _ => t
  | .error e => { t with entries := t.entries ++ [entry e] }

end Traced

/-- The entry of a decoder whose input does not decode. -/
def decoderEntry (category : Categories) (decoder : String) (e : Error) : Entry :=
  debugEntry category (ofString decoder ++ ofString ": " ++ e.format)

/-- Expands a short key. -/
def expandKey (lead : UInt8) (x : Bytes) : Traced Bytes := .ofOutcome (PublicKey.expand lead x)

/-- Restores a script. -/
def decompressScript (data : Bytes) : Traced Bytes := .ofOutcome (Script.decompress data)

/-- Reads an output. -/
def decodeTxOut (data : Bytes) : Traced (Decoded TxOut) := .ofOutcome (TxOut.decode data)

/-- Reads a coin. -/
def decodeCoin (data : Bytes) : Traced Coin :=
  (Traced.ofOutcome (Coin.decode data)).onError (decoderEntry .coins "Coin::deserialize")

/-- Reads a spent output on its own. -/
def decodeSpentOutput (data : Bytes) : Traced (Decoded SpentOutput) :=
  (Traced.ofOutcome (SpentOutput.decode data)).onError
    (decoderEntry .undo "SpentOutput::deserialize")

/-- Reads the next entry of a journal. -/
def readSpentOutput (r : SpendJournal.Reader) : Traced SpentOutput × SpendJournal.Reader :=
  (.ofOutcome r.read.1, r.read.2)

/-- Reads the journal of a block. -/
def decodeJournal (data : Bytes) (txs : List Transaction) : Traced SpendJournal :=
  (Traced.ofOutcome (SpendJournal.decode data txs)).onError
    (decoderEntry .undo "BlockUndo::deserialize")

/-- Reads a tip set. -/
def parseTips (t : Text) : Traced (List Hash) :=
  (Traced.ofOutcome (TipSet.parse t)).onError (decoderEntry .tips "deserialize_tip_hashes")

end CoinLedger.Log
