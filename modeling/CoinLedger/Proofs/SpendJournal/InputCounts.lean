import Mathlib
import CoinLedger.Inspect
import CoinLedger.Proofs.SpendJournal.RoundTrip

/-!
# Only the input counts of a block matter to its journal

A coinbase and a transaction without inputs leave no trace in a journal: they have no entries, and what
they make a writer or a reader forget is forgotten anyway at the start of the next transaction.  So a
journal is written and read alike for two blocks with the same `Transaction.inputCounts`
(`encode_eq_map`, `decode_eq_map`), down to the text and the offset of a failure.

The inspector knows nothing of a block but such counts.  The block that it makes of them has no
coinbase, so it stands for every block with these counts (`alike_of_inputCounts`).
-/

namespace CoinLedger

namespace Transaction

/-! ## Input counts -/

/-- The input counts of the transactions that are no coinbase and have inputs, in block order. -/
def inputCounts (txs : List Transaction) : List ℕ :=
  (txs.filter fun tx => !tx.isCoinbase && !tx.inputs.isEmpty).map fun tx => tx.inputs.length

lemma inputCounts_eq_filter (txs : List Transaction) :
    inputCounts txs = (spendCounts txs).filter (0 < ·) := by
  unfold inputCounts spendCounts
  rw [List.filter_map, List.filter_filter]
  congr 1
  apply List.filter_congr
  intro tx _
  have hinputs : (!tx.inputs.isEmpty) = decide (0 < tx.inputs.length) := by
    cases tx.inputs <;> rfl
  rw [hinputs, Bool.and_comm]
  rfl

/-- Numbers that are 0 may be left out of a sum. -/
lemma sum_filter_pos (counts : List ℕ) : (counts.filter (0 < ·)).sum = counts.sum := by
  induction counts with
  | nil => rfl
  | cons count counts ih =>
    rcases Nat.eq_zero_or_pos count with rfl | hpos
    · simpa using ih
    · rw [List.filter_cons_of_pos (by simpa using hpos), List.sum_cons, List.sum_cons, ih]

/-- A block spends as many outputs as its transactions have inputs. -/
lemma spentOutputs_eq_sum (txs : List Transaction) : spentOutputs txs = (inputCounts txs).sum := by
  rw [inputCounts_eq_filter, sum_filter_pos, ← SpendJournal.sum_reverse_spendCounts, List.sum_reverse]

lemma reverse_inputCounts (txs : List Transaction) :
    (inputCounts txs).reverse = (spendCounts txs).reverse.filter (0 < ·) := by
  rw [inputCounts_eq_filter, List.filter_reverse]

lemma length_withInputs (count : ℕ) : (withInputs count).inputs.length = count := by
  simp [withInputs]

/-- A transaction of the inspector is no coinbase, even if it has one input. -/
lemma isCoinbase_withInputs (count : ℕ) : (withInputs count).isCoinbase = false := by
  match count with
  | 0 => rfl
  | 1 => decide
  | count + 2 =>
    unfold isCoinbase
    split
    next hone =>
      have hlength := length_withInputs (count + 2)
      rw [hone, List.length_singleton] at hlength
      omega
    next => rfl

end Transaction

namespace Inspect

/-- The block that the inspector makes of input counts has no coinbase. -/
lemma isCoinbase_of_mem_blockOfCounts {counts : List ℕ} {tx : Transaction}
    (h : tx ∈ blockOfCounts counts) : tx.isCoinbase = false := by
  obtain ⟨count, -, rfl⟩ := List.mem_map.mp h
  exact Transaction.isCoinbase_withInputs count

/-- The block that the inspector makes of input counts has these counts. -/
lemma spendCounts_blockOfCounts (counts : List ℕ) :
    Transaction.spendCounts (blockOfCounts counts) = counts := by
  unfold Transaction.spendCounts
  rw [List.filter_eq_self.mpr fun tx htx => by rw [isCoinbase_of_mem_blockOfCounts htx]; rfl,
    blockOfCounts, List.map_map]
  exact List.map_id'' Transaction.length_withInputs counts

lemma inputCounts_blockOfCounts (counts : List ℕ) :
    Transaction.inputCounts (blockOfCounts counts) = counts.filter (0 < ·) := by
  rw [Transaction.inputCounts_eq_filter, spendCounts_blockOfCounts]

end Inspect

namespace SpendJournal

/-! ## Transactions without inputs -/

/-- Transactions without inputs, and what is remembered in front of the others, make no difference to
the bytes that are written. -/
lemma Writer.writeTransactions_filter (counts : List ℕ) (entries : List SpentOutput) (bytes : Bytes)
    (memory memory' : Option ℕ) :
    (writeTransactions ⟨bytes, memory⟩ counts entries).map Writer.bytes =
      (writeTransactions ⟨bytes, memory'⟩ (counts.filter (0 < ·)) entries).map Writer.bytes := by
  induction counts generalizing entries bytes memory memory' with
  | nil => rfl
  | cons count counts ih =>
    rcases Nat.eq_zero_or_pos count with rfl | hpos
    · exact ih entries bytes none memory'
    · rw [List.filter_cons_of_pos (by simpa using hpos), writeTransactions, writeTransactions]
      unfold nextTransaction
      dsimp only
      cases writeAll ⟨bytes, none⟩ (entries.take count) with
      | error e => rfl
      | ok w => exact ih (entries.drop count) w.bytes w.remembered w.remembered

/-- What a reader of transactions leaves to be looked at: where it is, and the entries. -/
def Reader.place (state : Reader × List SpentOutput) : Cursor × List SpentOutput :=
  (state.1.cursor, state.2)

/-- Transactions without inputs, and what is remembered in front of the others, make no difference to
what is read. -/
lemma Reader.readTransactions_filter (wanted : ℕ) (counts : List ℕ) (cursor : Cursor)
    (memory memory' : Option ℕ) (found : List SpentOutput) :
    (readTransactions wanted counts ⟨cursor, memory⟩ found).map place =
      (readTransactions wanted (counts.filter (0 < ·)) ⟨cursor, memory'⟩ found).map place := by
  induction counts generalizing cursor memory memory' found with
  | nil => rfl
  | cons count counts ih =>
    rcases Nat.eq_zero_or_pos count with rfl | hpos
    · exact ih cursor none memory' found
    · rw [List.filter_cons_of_pos (by simpa using hpos), readTransactions, readTransactions]
      unfold nextTransaction
      dsimp only
      cases readEntries wanted count ⟨cursor, none⟩ found with
      | error e => rfl
      | ok state => exact ih state.1.cursor state.1.remembered state.1.remembered state.2

/-! ## Journals -/

/-- A journal is written by the input counts of its block. -/
lemma encode_eq_map (journal : SpendJournal) (txs : List Transaction) :
    journal.encode txs =
      if (Transaction.inputCounts txs).sum = journal.spent.length then
        (Writer.empty.writeTransactions (Transaction.inputCounts txs).reverse
          journal.spent.reverse).map Writer.bytes
      else .error ⟨.journalCount (Transaction.inputCounts txs).sum journal.spent.length, 0⟩ := by
  have hbytes : (Writer.empty.writeTransactions (Transaction.inputCounts txs).reverse
      journal.spent.reverse).map Writer.bytes =
        (Writer.empty.writeTransactions (Transaction.spendCounts txs).reverse
          journal.spent.reverse).map Writer.bytes := by
    rw [Transaction.reverse_inputCounts]
    exact (Writer.writeTransactions_filter _ _ [] none none).symm
  rw [hbytes, ← Transaction.spentOutputs_eq_sum]
  unfold encode
  dsimp only
  cases Writer.empty.writeTransactions (Transaction.spendCounts txs).reverse
    journal.spent.reverse <;> rfl

/-- A journal is read by the input counts of its block. -/
lemma decode_eq_map (data : Bytes) (txs : List Transaction) :
    decode data txs =
      if data = [] then
        if (Transaction.inputCounts txs).sum = 0 then .ok ⟨[]⟩
        else .error ⟨.journalMissing (Transaction.inputCounts txs).sum, 0⟩
      else
        match (Reader.readTransactions (Transaction.inputCounts txs).sum
          (Transaction.inputCounts txs).reverse (Reader.start data) []).map Reader.place with
        | .error e => .error e
        | .ok (cursor, spent) =>
          if cursor.atEnd then .ok ⟨spent⟩
          else .error ⟨.journalLeftover (data.length - cursor.pos) (Transaction.inputCounts txs).sum,
            cursor.pos⟩ := by
  have hplace : (Reader.readTransactions (Transaction.inputCounts txs).sum
      (Transaction.inputCounts txs).reverse (Reader.start data) []).map Reader.place =
        (Reader.readTransactions (Transaction.inputCounts txs).sum
          (Transaction.spendCounts txs).reverse (Reader.start data) []).map Reader.place := by
    rw [Transaction.reverse_inputCounts]
    exact (Reader.readTransactions_filter _ _ (Cursor.start data) none none []).symm
  rw [hplace, ← Transaction.spentOutputs_eq_sum]
  unfold decode
  dsimp only
  cases Reader.readTransactions (Transaction.spentOutputs txs) (Transaction.spendCounts txs).reverse
    (Reader.start data) [] <;> rfl

lemma decode_congr {txs txs' : List Transaction}
    (h : Transaction.inputCounts txs = Transaction.inputCounts txs') (data : Bytes) :
    decode data txs = decode data txs' := by
  rw [decode_eq_map, decode_eq_map, h]

/-- For blocks whose transactions with inputs, coinbases apart, have the same input counts, every
journal is written alike and all bytes are read alike.  The block that the inspector makes of counts
has no coinbase, and bytes are read for it as for every block with these counts. -/
theorem alike_of_inputCounts :
    (∀ txs txs' : List Transaction, Transaction.inputCounts txs = Transaction.inputCounts txs' →
      (∀ journal : SpendJournal, journal.encode txs = journal.encode txs') ∧
        ∀ data, decode data txs = decode data txs') ∧
    ∀ counts, (∀ tx ∈ Inspect.blockOfCounts counts, tx.isCoinbase = false) ∧
      ∀ txs, Transaction.inputCounts txs = counts.filter (0 < ·) →
        ∀ data, decode data (Inspect.blockOfCounts counts) = decode data txs := by
  constructor
  · intro txs txs' h
    refine ⟨?_, decode_congr h⟩
    intro journal
    rw [encode_eq_map, encode_eq_map, h]
  · intro counts
    refine ⟨fun tx htx => Inspect.isCoinbase_of_mem_blockOfCounts htx, ?_⟩
    intro txs htxs
    exact decode_congr ((Inspect.inputCounts_blockOfCounts counts).trans htxs.symm)

/-- The block of mixed transactions, without its coinbases and with a transaction without inputs at
another place. -/
theorem alike_of_inputCounts_mixedBlock :
    Transaction.inputCounts mixedBlock = [1, 4] ∧
    mixedJournal.encode [.withInputs 1, .withInputs 4, ⟨[]⟩] = .ok mixedData ∧
    decode mixedData (Inspect.blockOfCounts [0, 1, 4]) = .ok mixedJournal ∧
    decode (mixedData.take 29) (Inspect.blockOfCounts [0, 1, 4]) =
      .error ⟨.journalEnded 2 5, 29⟩ := by
  have hcounts : Transaction.inputCounts mixedBlock = [1, 4] := by decide
  have hwritten : mixedJournal.encode mixedBlock = .ok mixedData := by cbv
  have hread : decode mixedData mixedBlock = .ok mixedJournal := by cbv
  have hcut : decode (mixedData.take 29) mixedBlock = .error ⟨.journalEnded 2 5, 29⟩ := by cbv
  obtain ⟨halike, hshape⟩ := alike_of_inputCounts
  refine ⟨hcounts, ?_, ?_, ?_⟩
  · exact ((halike _ mixedBlock (by decide)).1 mixedJournal).trans hwritten
  · exact ((hshape [0, 1, 4]).2 mixedBlock (by decide) _).trans hread
  · exact ((hshape [0, 1, 4]).2 mixedBlock (by decide) _).trans hcut

end SpendJournal

end CoinLedger
