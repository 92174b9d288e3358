import CoinLedger.Log.Traced
import CoinLedger.Store

/-!
# The ledger

The ledger keeps coins, spend journals and the tips in three buckets of a store.  Every
operation gives its outcome together with the entries that it logs; an operation that writes
gives the new store.

Stored bytes that do not decode mean that the store is damaged: a malformed record is reported
as corrupt under its name, other failures keep their fault, and both are logged as errors.
-/

namespace CoinLedger.Ledger

open Text (ofString decimal)
open Log (Traced Entry)

/-- The bucket of the coins. -/
def coinBucket : Text := ofString "utxoset"

/-- The bucket of the spend journals. -/
def journalBucket : Text := ofString "spendjournal"

/-- The bucket of the state of the chain. -/
def stateBucket : Text := ofString "dagstate"

/-- Where a coin is kept. -/
def coinSlot (o : OutPoint) : Slot := ⟨coinBucket, o.key⟩

/-- Where the spend journal of a block is kept. -/
def journalSlot (block : Hash) : Slot := ⟨journalBucket, block.bytes⟩

/-- Where the tips are kept. -/
def tipSlot : Slot := ⟨stateBucket, ofString "tips"⟩

/-- The name of a coin in reports. -/
def coinName (o : OutPoint) : Text := ofString "unspent output " ++ o.toText

/-- The name of a spend journal in reports. -/
def journalName (block : Hash) : Text := ofString "spend journal for block " ++ block.toText

/-- The entry for a failure of the ledger. -/
def errorEntry (what : Text) (e : Error) : Entry :=
  ⟨.error, .db, what ++ ofString ": " ++ e.format⟩

/-- The error of a stored record that does not decode. -/
def damage (what : Text) (e : Error) : Error :=
  if e.kind = .malformed then ⟨.damaged what e.fault, e.bytesRead⟩ else e

/-- Reports the failure to decode the stored record `what`. -/
def reportDamage {α : Type} (what : Text) (t : Traced α) : Traced α :=
  match t.outcome with
  | .ok _ => t
  | .error e =>
    ⟨.error (damage what e), t.entries ++ [errorEntry what (damage what e)]⟩

/-- Stores a coin. -/
def insertCoin (s : Store) (o : OutPoint) (c : Coin) : Traced Store :=
  .silent (.ok (s.insert (coinSlot o) c.encode))

/-- Reads a coin. -/
def getCoin (s : Store) (o : OutPoint) : Traced Coin :=
  match s.get (coinSlot o) with
  | .error e => .silent (.error e)
  | .ok data => reportDamage (coinName o) (Log.decodeCoin data)

/-- Removes a coin. -/
def eraseCoin (s : Store) (o : OutPoint) : Traced Store := .silent (.ok (s.erase (coinSlot o)))

/-- Stores the spend journal of a block with the given transactions. -/
def insertJournal (s : Store) (block : Hash) (journal : SpendJournal) (txs : List Transaction) :
    Traced Store :=
  match journal.encode txs with
  | .error e => ⟨.error e, [errorEntry (journalName block) e]⟩
  | .ok data => .silent (.ok (s.insert (journalSlot block) data))

/-- Reads the spend journal of a block with the given transactions.  A block that spends nothing
needs no stored journal. -/
def getJournal (s : Store) (block : Hash) (txs : List Transaction) : Traced SpendJournal :=
  match s.get (journalSlot block) with
  | .error e =>
    if e.code = .storageNotFound ∧ Transaction.spentOutputs txs = 0 then .silent (.ok ⟨[]⟩)
    else .silent (.error e)
  | .ok data => reportDamage (journalName block) (Log.decodeJournal data txs)

/-- Removes the spend journal of a block. -/
def eraseJournal (s : Store) (block : Hash) : Traced Store :=
  .silent (.ok (s.erase (journalSlot block)))

/-- The entry for stored tips. -/
def storingEntry (count : Nat) : Entry :=
  Log.debugEntry .db (ofString "storing " ++ decimal count ++ ofString " tip hashes")

/-- Stores the tips. -/
def setTips (s : Store) (tips : List Hash) : Traced Store :=
  ⟨.ok (s.insert tipSlot (TipSet.format tips)), [storingEntry tips.length]⟩

/-- Reads the tips. -/
def getTips (s : Store) : Traced (List Hash) :=
  match s.get tipSlot with
  | .error e => .silent (.error e)
  | .ok data => (Log.parseTips data).onError (errorEntry (ofString "tip set"))

end CoinLedger.Ledger
