import CoinLedger.Ledger

/-!
# Commands to a ledger

A command is one operation of the ledger, or one access to the store beneath it.  `run` carries
it out and gives the reply and the store afterwards; a command that fails leaves the store as it
was.
-/

namespace CoinLedger.Ledger

open Log (Traced Entry)

/-- An operation of the ledger or of its store. -/
inductive Command where
  /-- stores a coin -/
  | insertCoin (o : OutPoint) (c : Coin)
  /-- reads a coin -/
  | getCoin (o : OutPoint)
  /-- removes a coin -/
  | eraseCoin (o : OutPoint)
  /-- stores the spend journal of a block -/
  | insertJournal (block : Hash) (journal : SpendJournal) (txs : List Transaction)
  /-- reads the spend journal of a block -/
  | getJournal (block : Hash) (txs : List Transaction)
  /-- removes the spend journal of a block -/
  | eraseJournal (block : Hash)
  /-- stores the tips -/
  | setTips (tips : List Hash)
  /-- reads the tips -/
  | getTips
  /-- writes a value into the store -/
  | write (slot : Slot) (value : Bytes)
  /-- reads a value from the store -/
  | read (slot : Slot)
  /-- empties a slot of the store -/
  | erase (slot : Slot)
  /-- asks whether a slot of the store has a value -/
  | contains (slot : Slot)
  /-- asks for the number of values in a bucket -/
  | size (bucket : Text)

/-- The answer to a command that succeeds. -/
inductive Answer where
  /-- nothing but success -/
  | done
  /-- a coin -/
  | coin (c : Coin)
  /-- a spend journal -/
  | journal (journal : SpendJournal)
  /-- the tips -/
  | tips (tips : List Hash)
  /-- a stored value -/
  | value (data : Bytes)
  /-- yes or no -/
  | verdict (yes : Bool)
  /-- a number -/
  | count (n : Nat)
  deriving DecidableEq

/-- The reply to a command: its outcome with the entries that it logs. -/
abbrev Reply := Traced Answer

namespace Command

/-- A command that reads: the store stays. -/
def reading {α : Type} (s : Store) (answer : α → Answer) (t : Traced α) : Reply × Store :=
  (⟨t.outcome.map answer, t.entries⟩, s)

/-- A command that writes: the store changes if it succeeds. -/
def writing (s : Store) (t : Traced Store) : Reply × Store :=
  match t.outcome with
  | .ok next => (⟨.ok .done, t.entries⟩, next)
  | .error e => (⟨.error e, t.entries⟩, s)

/-- Carries out a command. -/
def run (s : Store) : Command → Reply × Store
  | insertCoin o c => writing s (Ledger.insertCoin s o c)
  | getCoin o => reading s .coin (Ledger.getCoin s o)
  | eraseCoin o => writing s (Ledger.eraseCoin s o)
  | insertJournal block journal txs => writing s (Ledger.insertJournal s block journal txs)
  | getJournal block txs => reading s .journal (Ledger.getJournal s block txs)
  | eraseJournal block => writing s (Ledger.eraseJournal s block)
  | setTips tips => writing s (Ledger.setTips s tips)
  | getTips => reading s .tips (Ledger.getTips s)
  | write slot value => writing s (.silent (.ok (s.insert slot value)))
  | read slot => reading s .value (.silent (s.get slot))
  | erase slot => writing s (.silent (.ok (s.erase slot)))
  | contains slot => reading s .verdict (.silent (.ok (s.contains slot)))
  | size bucket => reading s .count (.silent (.ok (s.size bucket)))

end Command

end CoinLedger.Ledger
