import CoinLedger.OutPoint

/-!
# Transactions

The ledger needs of a transaction only which outputs it spends.  A transaction whose single
input is the null outpoint is a coinbase and spends nothing.
-/

namespace CoinLedger

/-- A transaction, seen through its inputs. -/
structure Transaction where
  /-- The outputs that the inputs name. -/
  inputs : List OutPoint
  deriving DecidableEq

namespace Transaction

/-- The transaction that creates new coins: one null input. -/
def coinbase : Transaction := ⟨[OutPoint.null]⟩

/-- Whether a transaction is a coinbase. -/
def isCoinbase (tx : Transaction) : Bool :=
  match tx.inputs with
  | [input] => input.isNull
  | _ => false

/-- The numbers of outputs that the transactions of a block spend, one number per transaction
that is no coinbase. -/
def spendCounts (txs : List Transaction) : List Nat :=
  (txs.filter (fun tx => !tx.isCoinbase)).map (fun tx => tx.inputs.length)

/-- The number of outputs that a block spends. -/
def spentOutputs (txs : List Transaction) : Nat := (spendCounts txs).foldr (· + ·) 0

/-- A transaction with `count` inputs that are not null. -/
def withInputs (count : Nat) : Transaction :=
  ⟨(List.range count).map (fun i => ⟨Hash.zero, UInt32.ofNat i⟩)⟩

end Transaction

end CoinLedger
