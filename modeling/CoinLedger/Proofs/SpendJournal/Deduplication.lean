import Mathlib
import CoinLedger.Proofs.Record.Size
import CoinLedger.Proofs.SpendJournal.BlockOrder

/-!
# Repeated headers without a memory

A writer drops the header of an entry if it remembers the same header code.  What it remembers is the
header code of the entry that it has just taken, and that is the entry of the next input of the
transaction.  So the bytes of a journal can be told without a memory: the `chunk` of an entry depends on
the entry and on its neighbour alone (`bytes_of_encode_eq_chunks`).

No chunk is longer than the entry on its own, so a journal is no longer than its entries together.
-/

namespace CoinLedger.SpendJournal

open SpentOutput (encodeAs)

/-! ## Chunks -/

/-- The bytes of an entry in front of the entry `next` of the next input of the transaction, if there is
one: with the same header code there, the header is dropped. -/
def chunk (next : Option SpentOutput) (s : SpentOutput) : Bytes :=
  if next.map (fun t => t.header.code) = some s.header.code then 0 :: s.out.encode else s.encode

/-- The chunks of the entries of a transaction, the last input first. -/
def transactionChunks : List SpentOutput → Bytes
  | [] => []
  | s :: entries => transactionChunks entries ++ chunk entries.head? s

/-- The chunk of an entry is the piece that is written behind the entry of the next input. -/
lemma encodeAs_writtenCode (next : Option SpentOutput) (s : SpentOutput) :
    encodeAs (writtenCode (next.map fun t => t.header.code) s) s = chunk next s := by
  rw [writtenCode, chunk]
  split <;> rfl

/-- The piece of the last of some entries is written behind the one in front of it. -/
lemma entryPieces_append_singleton (previous : Option ℕ) (entries : List SpentOutput)
    (s : SpentOutput) :
    entryPieces previous (entries ++ [s]) = entryPieces previous entries ++
      [encodeAs (writtenCode ((entries.getLast?.map fun t => t.header.code).or previous) s) s] := by
  induction entries generalizing previous with
  | nil => rfl
  | cons t entries ih =>
    have hlast : ((t :: entries).getLast?.map fun t => t.header.code).or previous =
        (entries.getLast?.map fun t => t.header.code).or (some t.header.code) := by
      rw [List.getLast?_cons]
      cases entries.getLast? <;> rfl
    rw [List.cons_append, entryPieces, ih, hlast]
    rfl

/-- The pieces of a transaction are its chunks. -/
lemma flatten_entryPieces_reverse (entries : List SpentOutput) :
    (entryPieces none entries.reverse).flatten = transactionChunks entries := by
  induction entries with
  | nil => rfl
  | cons s entries ih =>
    rw [List.reverse_cons, entryPieces_append_singleton, List.flatten_append, ih,
      List.getLast?_reverse, Option.or_none, encodeAs_writtenCode, List.flatten_singleton]
    rfl

/-- The bytes of the parts of a journal are the chunks of the transactions, the last one first. -/
lemma partBytes_parts {journal : SpendJournal} {txs : List Transaction}
    (h : journal.spent.length = Transaction.spentOutputs txs) :
    partBytes (journal.parts txs) = (journal.byTransaction txs).reverse.flatMap transactionChunks := by
  rw [parts_eq_reverse h, ← List.map_reverse, partBytes, List.flatMap_map]
  induction (journal.byTransaction txs).reverse with
  | nil => rfl
  | cons entries rest ih =>
    rw [List.flatMap_cons, List.flatMap_cons, List.flatten_append, ih, flatten_entryPieces_reverse]

/-! ## Lengths -/

/-- A dropped header makes an entry shorter, or leaves its length as it is. -/
lemma length_chunk_le (next : Option SpentOutput) (s : SpentOutput) :
    (chunk next s).length ≤ s.encodedSize := by
  have hpos := Vlq.size_pos s.header.code
  rw [chunk]
  split
  · rw [List.length_cons, TxOut.length_encode, SpentOutput.encodedSize]
    omega
  · exact s.length_encode.le

lemma length_transactionChunks_le (entries : List SpentOutput) :
    (transactionChunks entries).length ≤ (entries.map SpentOutput.encodedSize).sum := by
  induction entries with
  | nil => exact le_rfl
  | cons s entries ih =>
    have hchunk := length_chunk_le entries.head? s
    rw [transactionChunks, List.length_append, List.map_cons, List.sum_cons]
    omega

lemma length_flatMap_transactionChunks_le (transactions : List (List SpentOutput)) :
    (transactions.flatMap transactionChunks).length ≤
      (transactions.flatten.map SpentOutput.encodedSize).sum := by
  induction transactions with
  | nil => exact le_rfl
  | cons entries transactions ih =>
    have hfirst := length_transactionChunks_le entries
    rw [List.flatMap_cons, List.length_append, List.flatten_cons, List.map_append, List.sum_append]
    omega

/-- The bytes of a journal are the chunks of its entries, the last transaction and the last input first,
so they are no more than the entries take on their own. -/
theorem bytes_of_encode_eq_chunks {journal : SpendJournal} {txs : List Transaction} {data : Bytes}
    (h : journal.encode txs = .ok data) :
    data = (journal.byTransaction txs).reverse.flatMap transactionChunks ∧
      data.length ≤ (journal.spent.map SpentOutput.encodedSize).sum := by
  obtain ⟨hcount, -, rfl⟩ := encode_eq_ok_iff_parts.mp h
  have hflatten : (journal.byTransaction txs).flatten = journal.spent := by
    apply List.flatten_splitLengths
    rw [← hcount, ← sum_reverse_spendCounts, List.sum_reverse]
  have hperm : (journal.byTransaction txs).reverse.flatten.Perm journal.spent := by
    rw [← hflatten]
    exact (List.reverse_perm _).flatten
  refine ⟨partBytes_parts hcount.symm, ?_⟩
  rw [partBytes_parts hcount.symm, ← (hperm.map SpentOutput.encodedSize).sum_eq]
  exact length_flatMap_transactionChunks_le _

/-- In the journal of the block of mixed transactions one header is dropped: a 0 stands in the place of
its code and of the reserved number, so the journal is one byte shorter than its entries. -/
theorem bytes_of_encode_mixedJournal :
    mixedJournal.encode mixedBlock = .ok mixedData ∧
    mixedData = (mixedJournal.byTransaction mixedBlock).reverse.flatMap transactionChunks ∧
    mixedData.length ≤ (mixedJournal.spent.map SpentOutput.encodedSize).sum ∧
    (mixedJournal.spent.map SpentOutput.encodedSize).sum = mixedData.length + 1 := by
  have h : mixedJournal.encode mixedBlock = .ok mixedData := by cbv
  have hsum : (mixedJournal.spent.map SpentOutput.encodedSize).sum = mixedData.length + 1 := by cbv
  obtain ⟨hchunks, hlength⟩ := bytes_of_encode_eq_chunks h
  exact ⟨h, hchunks, hlength, hsum⟩

end CoinLedger.SpendJournal
