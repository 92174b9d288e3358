import Mathlib
import CoinLedger.Ledger.Command
import CoinLedger.Proofs.Log

/-!
# Operations of the ledger

What each operation makes of the store, without the entries that it logs.  A read gives what the value
in its slot decodes to (`outcome_getCoin_of_some`, `outcome_getJournal_of_some`,
`outcome_getTips_of_some`), or says that there is none.  A command that fails leaves the store as it is
(`Command.run_of_error`), and `Command.runAll` carries out commands one after the other.
-/

namespace CoinLedger

open Log (Traced)

namespace Ledger

/-- What decodes is not reported as damaged. -/
lemma outcome_reportDamage_of_ok {α : Type} {t : Traced α} {a : α} (h : t.outcome = .ok a)
    (what : Text) : (reportDamage what t).outcome = .ok a := by
  unfold reportDamage
  rw [h]
  exact h

/-! ## Reading -/

section Reading

variable {s : Store} {data : Bytes}

lemma get_of_some {slot : Slot} (h : s.find? slot = some data) : s.get slot = .ok data := by
  rw [Store.get, h]

lemma get_of_none {slot : Slot} (h : s.find? slot = none) :
    s.get slot = .error ⟨.noEntry slot.bucket, 0⟩ := by
  rw [Store.get, h]

/-- A stored record that decodes is the coin that is read. -/
lemma outcome_getCoin_of_some {o : OutPoint} {c : Coin} (h : s.find? (coinSlot o) = some data)
    (hdecode : Coin.decode data = .ok c) : (getCoin s o).outcome = .ok c := by
  unfold getCoin
  rw [get_of_some h]
  refine outcome_reportDamage_of_ok ?_ (coinName o)
  rw [Log.decodeCoin, Traced.outcome_onError, Traced.outcome_ofOutcome, hdecode]

lemma outcome_getCoin_of_none {o : OutPoint} (h : s.find? (coinSlot o) = none) :
    (getCoin s o).outcome = .error ⟨.noEntry coinBucket, 0⟩ := by
  unfold getCoin
  rw [get_of_none h]
  rfl

/-- A stored journal that decodes for the given transactions is the journal that is read. -/
lemma outcome_getJournal_of_some {block : Hash} {txs : List Transaction} {journal : SpendJournal}
    (h : s.find? (journalSlot block) = some data)
    (hdecode : SpendJournal.decode data txs = .ok journal) :
    (getJournal s block txs).outcome = .ok journal := by
  unfold getJournal
  rw [get_of_some h]
  refine outcome_reportDamage_of_ok ?_ (journalName block)
  rw [Log.decodeJournal, Traced.outcome_onError, Traced.outcome_ofOutcome, hdecode]

/-- Without a stored journal, transactions that spend nothing have the empty one. -/
lemma outcome_getJournal_of_none {block : Hash} (h : s.find? (journalSlot block) = none)
    (txs : List Transaction) :
    (getJournal s block txs).outcome =
      if Transaction.spentOutputs txs = 0 then .ok ⟨[]⟩
      else .error ⟨.noEntry journalBucket, 0⟩ := by
  have hcode : (⟨.noEntry (journalSlot block).bucket, 0⟩ : Error).code = .storageNotFound := rfl
  unfold getJournal
  rw [get_of_none h]
  dsimp only
  by_cases hspent : Transaction.spentOutputs txs = 0
  · rw [if_pos ⟨hcode, hspent⟩, if_pos hspent]
    rfl
  · rw [if_neg (fun hboth => hspent hboth.2), if_neg hspent]
    rfl

/-- A stored text that is a tip set is the tips that are read. -/
lemma outcome_getTips_of_some {tips : List Hash} (h : s.find? tipSlot = some data)
    (hparse : TipSet.parse data = .ok tips) : (getTips s).outcome = .ok tips := by
  unfold getTips
  rw [get_of_some h]
  dsimp only
  rw [Log.parseTips, Traced.outcome_onError, Traced.outcome_onError, Traced.outcome_ofOutcome, hparse]

lemma outcome_getTips_of_none (h : s.find? tipSlot = none) :
    (getTips s).outcome = .error ⟨.noEntry stateBucket, 0⟩ := by
  unfold getTips
  rw [get_of_none h]
  rfl

end Reading

/-! ## Writing -/

/-- A journal that is written goes into the slot of its block. -/
lemma insertJournal_of_ok {journal : SpendJournal} {txs : List Transaction} {data : Bytes}
    (h : journal.encode txs = .ok data) (s : Store) (block : Hash) :
    insertJournal s block journal txs = .silent (.ok (s.insert (journalSlot block) data)) := by
  rw [insertJournal, h]

/-- A journal that cannot be written is answered by the error of writing it. -/
lemma outcome_insertJournal_of_error {journal : SpendJournal} {txs : List Transaction} {e : Error}
    (h : journal.encode txs = .error e) (s : Store) (block : Hash) :
    (insertJournal s block journal txs).outcome = .error e := by
  rw [insertJournal, h]

namespace Command

/-- Carries out commands one after the other. -/
def runAll (s : Store) (commands : List Command) : Store :=
  commands.foldl (fun s c => (run s c).2) s

/-- A command that fails leaves the store as it is. -/
theorem run_of_error {s : Store} {c : Command} {e : Error} (h : (run s c).1.outcome = .error e) :
    (run s c).2 = s := by
  have hwriting : ∀ t : Traced Store, (writing s t).1.outcome = .error e → (writing s t).2 = s := by
    intro t ht
    unfold writing at ht ⊢
    split
    next next hnext =>
      rw [hnext] at ht
      cases ht
    next => rfl
  cases c with
  | insertCoin o c => exact hwriting _ h
  | eraseCoin o => exact hwriting _ h
  | insertJournal block journal txs => exact hwriting _ h
  | eraseJournal block => exact hwriting _ h
  | setTips tips => exact hwriting _ h
  | write slot value => exact hwriting _ h
  | erase slot => exact hwriting _ h
  | getCoin o => rfl
  | getJournal block txs => rfl
  | getTips => rfl
  | read slot => rfl
  | contains slot => rfl
  | size bucket => rfl

end Command

end Ledger

end CoinLedger
