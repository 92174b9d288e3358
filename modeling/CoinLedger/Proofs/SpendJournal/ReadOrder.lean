import Mathlib
import CoinLedger.Proofs.SpendJournal.Rewrite

/-!
# The order in which entries are read

The reader goes through a block from its end, and puts each entry in front of those that it has read
before.  So the entry for an input ends up behind those of the transactions in front and those of the
inputs in front: that is where the reader, when it comes to this input of this transaction, puts what it
reads (`readAt_of_decode`).
-/

namespace CoinLedger.SpendJournal

/-! ## Places of inputs -/

/-- The inputs of transactions have places in the order of the block, as many as there are inputs. -/
lemma place_lt {counts : List ℕ} {n : ℕ} (h : n = counts.sum) (tx : Fin counts.length)
    (input : Fin (counts.get tx)) : (counts.take tx).sum + input < n := by
  have hsplit : counts.sum = (counts.take tx).sum + (counts.drop tx).sum :=
    (List.sum_take_add_sum_drop counts tx).symm
  have hdrop : counts.drop tx = counts.get tx :: counts.drop (tx + 1) :=
    List.drop_eq_getElem_cons tx.isLt
  rw [hdrop, List.sum_cons] at hsplit
  have hinput := input.isLt
  omega

/-- The entry in the place of an input. -/
def entryAt {counts : List ℕ} {spent : List SpentOutput} (h : spent.length = counts.sum)
    (tx : Fin counts.length) (input : Fin (counts.get tx)) : SpentOutput :=
  spent.get ⟨(counts.take tx).sum + input, place_lt h tx input⟩

/-- The reader of a journal comes to an input of a transaction and reads an entry: it has read the
transactions behind this one, and of this one the inputs behind this one. -/
def ReadAt (data : Bytes) (counts : List ℕ) (tx : Fin counts.length) (input : Fin (counts.get tx))
    (s : SpentOutput) : Prop :=
  ∃ r₁ found₁ r₂ found₂ r₃,
    Reader.readTransactions counts.sum (counts.drop (tx + 1)).reverse (Reader.start data) [] =
      .ok (r₁, found₁) ∧
    Reader.readEntries counts.sum (counts.get tx - (input + 1)) r₁.nextTransaction found₁ =
      .ok (r₂, found₂) ∧
    r₂.read = (.ok s, r₃)

/-! ## Reading in steps -/

namespace Reader

variable {wanted : ℕ} {r r' : Reader} {found found' : List SpentOutput}

/-- The entries that are read come in front of those that have been read. -/
lemma exists_append_of_readEntries {count : ℕ}
    (h : readEntries wanted count r found = .ok (r', found')) :
    ∃ entries : List SpentOutput, entries.length = count ∧ found' = entries ++ found := by
  induction count generalizing r found with
  | zero =>
    cases h
    exact ⟨[], rfl, rfl⟩
  | succ count ih =>
    obtain ⟨s, r₁, -, -, hothers⟩ := readEntries_succ_eq_ok_iff.mp h
    obtain ⟨entries, rfl, rfl⟩ := ih hothers
    exact ⟨entries ++ [s], by simp, by simp⟩

/-- Some of the entries are read, and then the others. -/
lemma exists_readEntries_of_add {count more : ℕ}
    (h : readEntries wanted (count + more) r found = .ok (r', found')) :
    ∃ r₁ found₁, readEntries wanted count r found = .ok (r₁, found₁) ∧
      readEntries wanted more r₁ found₁ = .ok (r', found') := by
  induction count generalizing r found with
  | zero =>
    rw [Nat.zero_add] at h
    exact ⟨r, found, rfl, h⟩
  | succ count ih =>
    rw [Nat.add_right_comm] at h
    obtain ⟨s, r₁, hmore, hread, hothers⟩ := readEntries_succ_eq_ok_iff.mp h
    obtain ⟨r₂, found₂, hfirst, hlast⟩ := ih hothers
    exact ⟨r₂, found₂, readEntries_succ_eq_ok_iff.mpr ⟨s, r₁, hmore, hread, hfirst⟩, hlast⟩

/-- Transactions are read, then one, and then the others. -/
lemma exists_readEntries_of_append_cons {first rest : List ℕ} {count : ℕ}
    (h : readTransactions wanted (first ++ count :: rest) r found = .ok (r', found')) :
    ∃ r₁ found₁ r₂ found₂, readTransactions wanted first r found = .ok (r₁, found₁) ∧
      readEntries wanted count r₁.nextTransaction found₁ = .ok (r₂, found₂) ∧
        readTransactions wanted rest r₂ found₂ = .ok (r', found') := by
  induction first generalizing r found with
  | nil =>
    obtain ⟨r₂, found₂, hread, hrest⟩ := readTransactions_cons_eq_ok_iff.mp h
    exact ⟨r, found, r₂, found₂, rfl, hread, hrest⟩
  | cons other first ih =>
    obtain ⟨r₀, found₀, hread, hothers⟩ := readTransactions_cons_eq_ok_iff.mp h
    obtain ⟨r₁, found₁, r₂, found₂, hfirst, hrest⟩ := ih hothers
    exact ⟨r₁, found₁, r₂, found₂,
      readTransactions_cons_eq_ok_iff.mpr ⟨r₀, found₀, hread, hfirst⟩, hrest⟩

end Reader

/-! ## Journals -/

/-- Where entries are read for transactions, the entry in the place of an input is the one that is read
when the reader comes to this input. -/
lemma readAt_of_readTransactions {data : Bytes} {counts : List ℕ} {r : Reader}
    {spent : List SpentOutput}
    (h : Reader.readTransactions counts.sum counts.reverse (Reader.start data) [] = .ok (r, spent))
    (hlength : spent.length = counts.sum) (tx : Fin counts.length) (input : Fin (counts.get tx)) :
    ReadAt data counts tx input (entryAt hlength tx input) := by
  have hcounts : counts.reverse =
      (counts.drop (tx + 1)).reverse ++ counts.get tx :: (counts.take tx).reverse := by
    conv_lhs => rw [← List.take_append_drop tx counts, List.drop_eq_getElem_cons tx.isLt]
    simp
  have hinputs : counts.get tx = counts.get tx - (input + 1) + (input + 1) := by
    have hinput := input.isLt
    omega
  rw [hcounts] at h
  obtain ⟨r₁, found₁, r₄, found₄, hlater, hentries, hearlier⟩ :=
    Reader.exists_readEntries_of_append_cons h
  rw [hinputs] at hentries
  obtain ⟨r₂, found₂, hbehind, hrest⟩ := Reader.exists_readEntries_of_add hentries
  obtain ⟨s, r₃, -, hread, hfront⟩ := Reader.readEntries_succ_eq_ok_iff.mp hrest
  obtain ⟨front, hfrontLength, rfl⟩ := Reader.exists_append_of_readEntries hfront
  obtain ⟨earlier, hearlierLength, rfl, -⟩ := Reader.exists_entries_of_readTransactions hearlier
  have hplace : (earlier.reverse ++ front).length = (counts.take tx).sum + input := by
    rw [List.length_append, List.length_reverse, hearlierLength, List.sum_reverse, hfrontLength]
  have hget :=
    List.getElem_of_append (List.append_assoc earlier.reverse front (s :: found₂)).symm hplace
  rw [entryAt, List.get_eq_getElem, hget]
  exact ⟨r₁, found₁, r₂, found₂, r₃, hlater, hbehind, hread⟩

/-- The entry of a journal in the place of an input of a transaction is the one that the reader reads
when it comes to this input. -/
theorem readAt_of_decode {data : Bytes} {txs : List Transaction} {journal : SpendJournal}
    {counts : List ℕ} (h : decode data txs = .ok journal)
    (hcounts : Transaction.spendCounts txs = counts) (hlength : journal.spent.length = counts.sum)
    (tx : Fin counts.length) (input : Fin (counts.get tx)) :
    ReadAt data counts tx input (entryAt hlength tx input) := by
  have hwanted : Transaction.spentOutputs txs = counts.sum := by
    rw [← sum_reverse_spendCounts, hcounts, List.sum_reverse]
  rcases exists_readTransactions_of_decode h with ⟨hnone, -⟩ | ⟨r, hread⟩
  · have hplace := place_lt hwanted tx input
    omega
  · rw [hwanted, hcounts] at hread
    exact readAt_of_readTransactions hread hlength tx input

end CoinLedger.SpendJournal
