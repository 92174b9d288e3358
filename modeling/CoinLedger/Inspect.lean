import CoinLedger.Log.Traced
import CoinLedger.Settings.Logging

/-!
# The record inspector

A command-line tool that decodes one stored record, or compresses one amount, and prints what it
finds.  It ends with 0 on success, with 1 if the record does not decode, and with 2 if it is
called in a wrong way.
-/

namespace CoinLedger.Inspect

open Text (ofString decimal)
open Log (Session Traced)

/-- The key of the kind of record. -/
def recordKey : Text := ofString "record"

/-- The key of the bytes of the record. -/
def hexKey : Text := ofString "hex"

/-- The key of the input counts of the block of a spend journal. -/
def inputsKey : Text := ofString "txinputs"

/-- The key of an amount to compress. -/
def amountKey : Text := ofString "amount"

/-- A session at its end, with the exit status. -/
abbrev Finished := Session × UInt32

/-- The status of success. -/
def exitOk : UInt32 := 0

/-- The status of a record that does not decode. -/
def exitDecode : UInt32 := 1

/-- The status of a wrong call. -/
def exitUsage : UInt32 := 2

/-- A text that ends its line. -/
def line (t : Text) : Text := t ++ [Text.newline]

/-- How the tool is called. -/
def usage : Text :=
  [ "Usage: chainstate-tool -record=<coin|stxo|undo|tips> -hex=<bytes> [options]",
    "       chainstate-tool -amount=<n>",
    "",
    "Options:",
    "  -txinputs=N,N,...   Inputs per non-coinbase transaction (undo records)",
    "  -conf=FILE          Read options from FILE",
    "  -loglevel=LEVEL     trace, debug, info, warn, error, fatal, off",
    "  -debug=CATS         Comma-separated log categories",
    "  -logfile=FILE       Also write log output to FILE" ].flatMap
    (fun text => line (ofString text))

/-- Ends with the usage text. -/
def showUsage (s : Session) : Finished := (s.printError usage, exitUsage)

/-- Ends with a complaint about the call. -/
def refuse (s : Session) (what : Text) : Finished :=
  showUsage (s.printError (line (ofString "Error: " ++ what) ++ [Text.newline]))

/-- The report of a record that does not decode. -/
def failureText (e : Error) : Text :=
  line (ofString "decode failed: " ++ ofString e.kind.name ++ ofString " after " ++
    decimal e.bytesRead ++ ofString " bytes: " ++ e.message)

/-- The fields of an output, one on each line. -/
def outputText (indent : Text) (header : Header) (out : TxOut) : Text :=
  line (indent ++ ofString "height:   " ++ decimal header.height.toNat) ++
    line (indent ++ ofString "coinbase: " ++ ofString (if header.coinbase then "yes" else "no")) ++
    line (indent ++ ofString "amount:   " ++ decimal out.amount.toNat) ++
    line (indent ++ ofString "script:   " ++ Hex.encode out.script)

/-- The report of a coin read from `size` bytes. -/
def coinText (size : Nat) (c : Coin) : Text :=
  line (ofString "unspent output (" ++ decimal size ++ ofString " bytes)") ++
    outputText (ofString "  ") c.header c.out

/-- The report of a spent output read from `size` bytes. -/
def spentText (size : Nat) (d : Decoded SpentOutput) : Text :=
  line (ofString "spent output (" ++ decimal d.bytesRead ++ ofString " of " ++ decimal size ++
    ofString " bytes)") ++
    outputText (ofString "  ") d.value.header d.value.out

/-- The report of one entry of a spend journal. -/
def entryText (tx input : Nat) (s : SpentOutput) : Text :=
  line (ofString "  tx " ++ decimal tx ++ ofString " input " ++ decimal input) ++
    outputText (ofString "    ") s.header s.out

/-- The reports of the entries of one transaction. -/
def transactionText (tx : Nat) (entries : List SpentOutput) : Text :=
  (entries.zipIdx).flatMap (fun (s, input) => entryText tx input s)

/-- The reports of entries that belong to transactions with the given input counts, the first of
which is the transaction `tx`. -/
def transactionsText (tx : Nat) : List Nat → List SpentOutput → Text
  | [], _ => []
  | count :: counts, entries =>
    transactionText tx (entries.take count) ++
      transactionsText (tx + 1) counts (entries.drop count)

/-- The report of a spend journal. -/
def journalText (counts : List Nat) (journal : SpendJournal) : Text :=
  line (ofString "spend journal (" ++ decimal journal.spent.length ++ ofString " spent outputs)") ++
    transactionsText 0 counts journal.spent

/-- The report of a tip set. -/
def tipsText (tips : List Hash) : Text :=
  line (ofString "tip set (" ++ decimal tips.length ++ ofString " hashes)") ++
    tips.flatMap (fun hash => line (ofString "  " ++ hash.toText))

/-- The report of an amount. -/
def amountText (amount : UInt64) : Text :=
  let code := Amount.compress amount
  line (ofString "amount:     " ++ decimal amount.toNat) ++
    line (ofString "compressed: " ++ decimal code) ++
    line (ofString "encoded:    " ++ Hex.encode (Vlq.encode code))

/-- Reads unsigned 64-bit numbers, the first of which stands at `start` in the text. -/
def readCountFields (start : Nat) : List Text → Except Error (List Nat)
  | [] => .ok []
  | item :: rest =>
    match Text.readDecimal? UInt64.size item with
    | none => .error ⟨.inputCount item, start⟩
    | some n =>
      match readCountFields (start + item.length + 1) rest with
      | .error e => .error e
      | .ok counts => .ok (n :: counts)

/-- Reads input counts with commas between them. -/
def readCounts (t : Text) : Except Error (List Nat) := readCountFields 0 (Text.fields Text.comma t)

/-- Transactions with the given input counts.  Only the counts matter to a spend journal. -/
def blockOfCounts (counts : List Nat) : List Transaction := counts.map Transaction.withInputs

/-- Ends with what a decoder has found. -/
def report {α : Type} (s : Session) (t : Traced α) (text : α → Text) : Finished :=
  let s := s.logAll t.entries
  match t.outcome with
  | .ok a => (s.print (text a), exitOk)
  | .error e => ((s.print (failureText e)).log ⟨.info, .tool, e.format⟩, exitDecode)

/-- Decodes a spend journal, whose block the settings have to describe. -/
def showJournal (s : Session) (settings : Settings) (data : Bytes) : Finished :=
  match settings.get? inputsKey with
  | none => refuse s (ofString "-record=undo requires -txinputs")
  | some text =>
    match readCounts text with
    | .error e => refuse s (ofString "-txinputs: " ++ e.message)
    | .ok counts => report s (Log.decodeJournal data (blockOfCounts counts)) (journalText counts)

/-- Decodes a record of the given kind. -/
def showRecord (s : Session) (settings : Settings) (kind : Text) (data : Bytes) : Finished :=
  if kind = ofString "coin" then report s (Log.decodeCoin data) (coinText data.length)
  else if kind = ofString "stxo" then report s (Log.decodeSpentOutput data) (spentText data.length)
  else if kind = ofString "undo" then showJournal s settings data
  else if kind = ofString "tips" then report s (Log.parseTips data) tipsText
  else refuse s (ofString "unknown record type '" ++ kind ++ ofString "'")

/-- The entry for a record that is about to be decoded. -/
def decodingEntry (size : Nat) (kind : Text) : Log.Entry :=
  ⟨.debug, .tool, ofString "decoding " ++ decimal size ++ ofString " bytes as " ++ kind⟩

/-- Does what the settings ask for: an amount goes before a record. -/
def perform (s : Session) (settings : Settings) : Finished :=
  match settings.getNumber amountKey with
  | .error e => refuse s (ofString "-amount: " ++ e.message)
  | .ok (some amount) => (s.print (amountText (UInt64.ofNat amount)), exitOk)
  | .ok none =>
    let kind := settings.getD recordKey []
    match settings.get? hexKey with
    | none => showUsage s
    | some hex =>
      if kind = [] then showUsage s
      else
        match Hex.decode hex with
        | .error e => refuse s (ofString "-hex: " ++ e.message)
        | .ok data => showRecord (s.log (decodingEntry data.length kind)) settings kind data

/-- Configures the log by the settings and goes on to what they ask for. -/
def configure (s : Session) (settings : Settings) : Finished :=
  match settings.configureLog s with
  | (s, .error e) => refuse s e.message
  | (s, .ok ()) => perform s settings

/-- Reads the settings file that the settings name, if they name one. -/
def loadFile (s : Session) (settings : Settings) : Finished :=
  match settings.get? Settings.fileKey with
  | none => configure s settings
  | some path =>
    match settings.load s path with
    | (s, _, .error e) => refuse s e.message
    | (s, settings, .ok ()) => configure s settings

/-- Runs the tool with the given arguments.  Unless a setting says otherwise, the log shows
warnings and failures only. -/
def run (s : Session) (arguments : List Text) : Finished :=
  let settings := Settings.empty.setDefault Settings.levelKey (ofString "warn")
  match settings.readArguments arguments with
  | (_, .error e) => refuse s e.message
  | (settings, .ok ()) => loadFile s settings

end CoinLedger.Inspect
