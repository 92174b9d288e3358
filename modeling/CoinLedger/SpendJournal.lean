import CoinLedger.SpendJournal.Reader
import CoinLedger.SpendJournal.Writer
import CoinLedger.Transaction

/-!
# Spend journals

The spend journal of a block holds one spent output per input of every transaction that is no
coinbase, in block order.  It is written backwards, the last transaction and the last input
first, which is the order in which a disconnected block is undone; a block that spends nothing
has the empty journal.

The transactions of the block say how many entries there are and where each transaction starts.
-/

namespace CoinLedger

/-- The outputs that a block spends, in block order. -/
structure SpendJournal where
  /-- The entries. -/
  spent : List SpentOutput
  deriving DecidableEq

namespace SpendJournal

/-- The stored form of the journal of a block with the given transactions. -/
def encode (journal : SpendJournal) (txs : List Transaction) : Except Error Bytes :=
  let wanted := Transaction.spentOutputs txs
  if wanted = journal.spent.length then
    match Writer.empty.writeTransactions (Transaction.spendCounts txs).reverse
        journal.spent.reverse with
    | .error e => .error e
    | .ok w => .ok w.bytes
  else .error ⟨.journalCount wanted journal.spent.length, 0⟩

/-- Reads the journal of a block with the given transactions. -/
def decode (data : Bytes) (txs : List Transaction) : Except Error SpendJournal :=
  let wanted := Transaction.spentOutputs txs
  if data = [] then
    if wanted = 0 then .ok ⟨[]⟩ else .error ⟨.journalMissing wanted, 0⟩
  else
    match Reader.readTransactions wanted (Transaction.spendCounts txs).reverse
        (Reader.start data) [] with
    | .error e => .error e
    | .ok (r, spent) =>
      if r.atEnd then .ok ⟨spent⟩
      else .error ⟨.journalLeftover (data.length - r.pos) wanted, r.pos⟩

end SpendJournal

end CoinLedger
