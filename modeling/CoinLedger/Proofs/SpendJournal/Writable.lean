import Mathlib
import CoinLedger.Proofs.SpendJournal.Cut

/-!
# Which journals are written, and how they are put together

A writer refuses an entry only if its header code is 0 and another header code stands before it in the
same transaction.  So whether the entries of a transaction are taken can be said of the entries alone:
every two of them are in an order in which one `MayFollow` the other (`Writer.exists_writeAll_iff`).

The journal of a block falls into the parts of its transactions (`parts`), and
`encode_eq_ok_iff_parts` says from the parts alone whether it is written and what is written.  Since
the parts of two blocks in a row are the parts of the one and of the other, so are their journals
(`encode_of_joined_blocks`): what a writer remembers never reaches another transaction.
-/

namespace CoinLedger.SpendJournal

/-! ## Entries that may follow each other -/

/-- Whether an entry of a transaction can be written behind another one: a header code 0 only behind
header codes 0. -/
def MayFollow (s t : SpentOutput) : Prop := t.header.code = 0 → s.header.code = 0

/-- Whether one entry can be written behind another is decided by their header codes. -/
instance mayFollowDecidable : DecidableRel MayFollow :=
  fun s t => inferInstanceAs (Decidable (t.header.code = 0 → s.header.code = 0))

namespace Writer

/-- An entry is refused only if its header code is 0 and another one is remembered. -/
lemma exists_write_iff {w : Writer} {s : SpentOutput} :
    (∃ w', w.write s = .ok w') ↔ (s.header.code = 0 → readerMemory w.remembered = none) := by
  simp only [write_eq_ok_iff]
  rcases w.offer_cases s with ⟨hsame, hoffer⟩ | ⟨-, hfirst, hoffer⟩ | ⟨last, hlast, hne, hzero, hoffer⟩
  · rw [hoffer, hsame]
    exact ⟨fun _ hzero => readerMemory_some_eq_none_iff.mpr hzero, fun _ => ⟨_, rfl⟩⟩
  · rw [hoffer]
    exact ⟨fun _ hzero => by rw [hfirst hzero]; rfl, fun _ => ⟨_, rfl⟩⟩
  · rw [hoffer, hlast, readerMemory_some_eq_none_iff]
    constructor
    · rintro ⟨w', h⟩
      cases h
    · intro h
      exact absurd (h hzero) hne

/-- Entries are taken if each may follow what is remembered and those before it. -/
lemma exists_writeAll_iff {w : Writer} {entries : List SpentOutput} :
    (∃ w', w.writeAll entries = .ok w') ↔
      (readerMemory w.remembered ≠ none → ∀ s ∈ entries, s.header.code ≠ 0) ∧
        entries.Pairwise MayFollow := by
  induction entries generalizing w with
  | nil =>
    simp [writeAll]
  | cons s entries ih =>
    have hstep : (∃ w', w.writeAll (s :: entries) = .ok w') ↔
        (s.header.code = 0 → readerMemory w.remembered = none) ∧
          (s.header.code ≠ 0 → ∀ t ∈ entries, t.header.code ≠ 0) ∧
            entries.Pairwise MayFollow := by
      rw [writeAll, ← exists_write_iff]
      cases hwrite : w.write s with
      | error e =>
        constructor
        · rintro ⟨w', h⟩
          cases h
        · rintro ⟨⟨w', h⟩, -⟩
          cases h
      | ok w₁ =>
        have hmemory := (bytes_of_write hwrite).2
        dsimp only
        rw [ih, hmemory, ne_eq, readerMemory_some_eq_none_iff]
        exact ⟨fun h => ⟨⟨_, rfl⟩, h⟩, And.right⟩
    rw [hstep, List.pairwise_cons, List.forall_mem_cons]
    constructor
    · rintro ⟨hs, hothers, hpairs⟩
      refine ⟨fun hmemory => ?_, fun t ht hzero => ?_, hpairs⟩
      · have hne : s.header.code ≠ 0 := fun hzero => hmemory (hs hzero)
        exact ⟨hne, hothers hne⟩
      · by_contra hne
        exact hothers hne t ht hzero
    · rintro ⟨hmemory, hfollow, hpairs⟩
      refine ⟨fun hzero => ?_, fun hne t ht hzero => hne (hfollow t ht hzero), hpairs⟩
      by_contra hne
      exact (hmemory hne).1 hzero

-- behind the header code 15 the header code 0 is refused
example : ¬ ∃ w', Writer.empty.writeAll [⟨⟨7, true⟩, 0, []⟩, ⟨⟨0, false⟩, 0, []⟩] = .ok w' := by
  rw [exists_writeAll_iff]
  decide

/-- Transactions are taken, by any writer, if the entries of each may follow each other. -/
lemma exists_writeTransactions_iff {w : Writer} {counts : List ℕ} {entries : List SpentOutput} :
    (∃ w', w.writeTransactions counts entries = .ok w') ↔
      ∀ part ∈ counts.splitLengths entries, part.Pairwise MayFollow := by
  induction counts generalizing w entries with
  | nil => exact ⟨fun _ => List.forall_mem_nil _, fun _ => ⟨w, rfl⟩⟩
  | cons count counts ih =>
    have hfirst : (∃ w', w.nextTransaction.writeAll (entries.take count) = .ok w') ↔
        (entries.take count).Pairwise MayFollow := by
      rw [exists_writeAll_iff]
      exact ⟨And.right, fun h => ⟨fun hmemory => absurd rfl hmemory, h⟩⟩
    rw [List.splitLengths_cons, List.forall_mem_cons, ← hfirst, writeTransactions]
    cases hwrite : w.nextTransaction.writeAll (entries.take count) with
    | error e =>
      constructor
      · rintro ⟨w', h⟩
        cases h
      · rintro ⟨⟨w', h⟩, -⟩
        cases h
    | ok w₁ =>
      dsimp only
      rw [ih]
      exact ⟨fun h => ⟨⟨_, rfl⟩, h⟩, And.right⟩

end Writer

/-! ## The parts of a journal -/

/-- The entries of each transaction that is no coinbase, the last transaction and the last input
first. -/
def parts (journal : SpendJournal) (txs : List Transaction) : List (List SpentOutput) :=
  (Transaction.spendCounts txs).reverse.splitLengths journal.spent.reverse

/-- What is written for entries that are split into the parts of transactions. -/
def partBytes (parts : List (List SpentOutput)) : Bytes := (parts.flatMap (entryPieces none)).flatten

lemma partBytes_append (first second : List (List SpentOutput)) :
    partBytes (first ++ second) = partBytes first ++ partBytes second := by
  rw [partBytes, List.flatMap_append, List.flatten_append]
  rfl

/-- The pieces of transactions are the pieces of their parts. -/
lemma transactionPieces_eq_flatMap (counts : List ℕ) (entries : List SpentOutput) :
    transactionPieces counts entries = (counts.splitLengths entries).flatMap (entryPieces none) := by
  induction counts generalizing entries with
  | nil => rfl
  | cons count counts ih => rw [transactionPieces, List.splitLengths_cons, List.flatMap_cons, ih]

/-- A journal is written if it has one entry for each output that the block spends and the entries of
each transaction may follow each other; then its bytes are those of its parts. -/
theorem encode_eq_ok_iff_parts {journal : SpendJournal} {txs : List Transaction} {data : Bytes} :
    journal.encode txs = .ok data ↔
      Transaction.spentOutputs txs = journal.spent.length ∧
        (∀ part ∈ journal.parts txs, part.Pairwise MayFollow) ∧
          partBytes (journal.parts txs) = data := by
  rw [encode_eq_ok_iff, parts, partBytes, ← transactionPieces_eq_flatMap]
  refine and_congr_right fun _ => ?_
  rw [← Writer.exists_writeTransactions_iff (w := Writer.empty)]
  constructor
  · rintro ⟨w, hwrite, rfl⟩
    exact ⟨⟨w, hwrite⟩, (Writer.bytes_of_writeTransactions hwrite).symm⟩
  · rintro ⟨⟨w, hwrite⟩, rfl⟩
    exact ⟨w, hwrite, Writer.bytes_of_writeTransactions hwrite⟩

/-! ## Two blocks in a row -/

lemma splitLengths_append {α : Type} {counts more : List ℕ} {first second : List α}
    (h : first.length = counts.sum) :
    (counts ++ more).splitLengths (first ++ second) =
      counts.splitLengths first ++ more.splitLengths second := by
  induction counts generalizing first with
  | nil =>
    rw [List.length_eq_zero_iff.mp h]
    rfl
  | cons count counts ih =>
    rw [List.sum_cons] at h
    have hrest : (first.drop count).length = counts.sum := by
      rw [List.length_drop]
      omega
    rw [List.cons_append, List.splitLengths_cons, List.splitLengths_cons, List.cons_append,
      List.take_append_of_le_length (by omega), List.drop_append_of_le_length (by omega), ih hrest]

lemma spendCounts_append (first second : List Transaction) :
    Transaction.spendCounts (first ++ second) =
      Transaction.spendCounts first ++ Transaction.spendCounts second := by
  rw [Transaction.spendCounts, List.filter_append, List.map_append]
  rfl

lemma spentOutputs_append (first second : List Transaction) :
    Transaction.spentOutputs (first ++ second) =
      Transaction.spentOutputs first + Transaction.spentOutputs second := by
  simp only [← sum_reverse_spendCounts, List.sum_reverse, spendCounts_append, List.sum_append]

/-- The parts of the journal of two blocks in a row are those of the second and those of the first. -/
lemma parts_append {first second : List SpentOutput} {txs txs' : List Transaction}
    (hsecond : second.length = Transaction.spentOutputs txs') :
    parts ⟨first ++ second⟩ (txs ++ txs') = parts ⟨second⟩ txs' ++ parts ⟨first⟩ txs := by
  rw [parts, spendCounts_append, List.reverse_append, List.reverse_append]
  apply splitLengths_append
  rw [List.length_reverse, hsecond, sum_reverse_spendCounts]

/-- The journal of two blocks in a row is written exactly if the journals of both are, and then it is
the one of the second block followed by the one of the first.  What a writer has written and remembers
does not matter to a block: it adds the bytes of the journal of the block to what it has. -/
theorem encode_of_joined_blocks {first second : List SpentOutput} {txs txs' : List Transaction}
    (hfirst : first.length = Transaction.spentOutputs txs)
    (hsecond : second.length = Transaction.spentOutputs txs') :
    ((∃ data, encode ⟨first ++ second⟩ (txs ++ txs') = .ok data) ↔
      (∃ data, encode ⟨first⟩ txs = .ok data) ∧ ∃ data, encode ⟨second⟩ txs' = .ok data) ∧
    (∀ data data', encode ⟨first⟩ txs = .ok data → encode ⟨second⟩ txs' = .ok data' →
      encode ⟨first ++ second⟩ (txs ++ txs') = .ok (data' ++ data)) ∧
    ∀ w data, encode ⟨first⟩ txs = .ok data ↔
      ∃ w', Writer.writeTransactions w (Transaction.spendCounts txs).reverse first.reverse = .ok w' ∧
        w'.bytes = w.bytes ++ data := by
  have hjoined : Transaction.spentOutputs (txs ++ txs') = (first ++ second).length := by
    rw [spentOutputs_append, List.length_append, hfirst, hsecond]
  refine ⟨?_, ?_, ?_⟩
  · simp only [encode_eq_ok_iff_parts, hjoined, hfirst, hsecond, parts_append hsecond,
      List.forall_mem_append, true_and, exists_and_left, exists_eq', and_true]
    exact And.comm
  · intro data data' hdata hdata'
    obtain ⟨-, hpairs, rfl⟩ := encode_eq_ok_iff_parts.mp hdata
    obtain ⟨-, hpairs', rfl⟩ := encode_eq_ok_iff_parts.mp hdata'
    refine encode_eq_ok_iff_parts.mpr ⟨hjoined, ?_, ?_⟩
    · rw [parts_append hsecond]
      exact List.forall_mem_append.mpr ⟨hpairs', hpairs⟩
    · rw [parts_append hsecond, partBytes_append]
  · intro w data
    rw [encode_eq_ok_iff_parts, parts, partBytes, ← transactionPieces_eq_flatMap,
      ← Writer.exists_writeTransactions_iff (w := w)]
    constructor
    · rintro ⟨-, ⟨w', hwrite⟩, rfl⟩
      exact ⟨w', hwrite, Writer.bytes_of_writeTransactions hwrite⟩
    · rintro ⟨w', hwrite, hbytes⟩
      refine ⟨hfirst.symm, ⟨w', hwrite⟩, ?_⟩
      exact List.append_cancel_left ((Writer.bytes_of_writeTransactions hwrite).symm.trans hbytes)

/-- The block of mixed transactions, taken apart behind its third one: the entry of the first part has
the header code 0 and is written behind the header code 15 of the second part. -/
theorem encode_of_joined_mixedBlock :
    (mixedJournal.spent.take 1).length = Transaction.spentOutputs (mixedBlock.take 3) ∧
    (mixedJournal.spent.drop 1).length = Transaction.spentOutputs (mixedBlock.drop 3) ∧
    encode ⟨mixedJournal.spent.take 1⟩ (mixedBlock.take 3) = .ok [0, 0, 6] ∧
    encode ⟨mixedJournal.spent.drop 1⟩ (mixedBlock.drop 3) = .ok (mixedData.take 38) ∧
    encode ⟨mixedJournal.spent.take 1 ++ mixedJournal.spent.drop 1⟩
      (mixedBlock.take 3 ++ mixedBlock.drop 3) = .ok (mixedData.take 38 ++ [0, 0, 6]) := by
  have hfirst : (mixedJournal.spent.take 1).length = Transaction.spentOutputs (mixedBlock.take 3) := by
    decide
  have hsecond : (mixedJournal.spent.drop 1).length = Transaction.spentOutputs (mixedBlock.drop 3) := by
    decide
  have hdata : encode ⟨mixedJournal.spent.take 1⟩ (mixedBlock.take 3) = .ok [0, 0, 6] := by cbv
  have hdata' : encode ⟨mixedJournal.spent.drop 1⟩ (mixedBlock.drop 3) = .ok (mixedData.take 38) := by
    cbv
  obtain ⟨-, hjoined, -⟩ := encode_of_joined_blocks hfirst hsecond
  exact ⟨hfirst, hsecond, hdata, hdata', hjoined _ _ hdata hdata'⟩

end CoinLedger.SpendJournal
