import CoinLedger.Inspect
import CoinLedger.Main
import CoinLedger.Proofs.Amount.Width
import CoinLedger.Proofs.Hex.Table
import CoinLedger.Proofs.Inspect.Counts
import CoinLedger.Proofs.Inspect.Run
import CoinLedger.Proofs.Ledger.Damage
import CoinLedger.Proofs.Ledger.Disconnect
import CoinLedger.Proofs.Ledger.Isolation
import CoinLedger.Proofs.Ledger.Reports
import CoinLedger.Proofs.Log.Run
import CoinLedger.Proofs.OutPoint.Key
import CoinLedger.Proofs.OutPoint.Order
import CoinLedger.Proofs.Script.Agreement
import CoinLedger.Proofs.Script.Canonical
import CoinLedger.Proofs.Settings.Categories
import CoinLedger.Proofs.Settings.Layers
import CoinLedger.Proofs.Settings.Lines
import CoinLedger.Proofs.SpendJournal.Deduplication
import CoinLedger.Proofs.SpendJournal.Failure
import CoinLedger.Proofs.SpendJournal.InputCounts
import CoinLedger.Proofs.SpendJournal.Joined
import CoinLedger.Proofs.SpendJournal.Progress
import CoinLedger.Proofs.SpendJournal.Rewrite
import CoinLedger.Proofs.SpendJournal.Session
import CoinLedger.Proofs.TipSet.Prefix
import CoinLedger.Proofs.Vlq.LookAhead
import CoinLedger.Proofs.Vlq.Word
