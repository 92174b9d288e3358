import Mathlib
import CoinLedger.Proofs.SpendJournal.Writable

/-!
# The order of a block

A journal is written backwards, but its entries are held in the order of the block: those of a
transaction stand together (`byTransaction`), and the entry of an input stands behind those of the
inputs before it.  The parts that are written are the transactions in this order, read from the end
(`parts_eq_reverse`).

`encode_iff_not_ambiguous`: the one thing that a writer cannot express is an `Ambiguous` transaction, in
which an input with the header code 0 stands in front of an input with another header code.  Any other
journal with one entry for each output that the block spends is written.
-/

namespace CoinLedger.SpendJournal

/-! ## Entries by transaction -/

/-- The entries of each transaction that is no coinbase, in block order. -/
def byTransaction (journal : SpendJournal) (txs : List Transaction) : List (List SpentOutput) :=
  (Transaction.spendCounts txs).splitLengths journal.spent

/-- A list that is split from its end falls into the same parts. -/
lemma splitLengths_reverse {α : Type} {counts : List ℕ} {l : List α} (h : l.length = counts.sum) :
    counts.reverse.splitLengths l.reverse = ((counts.splitLengths l).map List.reverse).reverse := by
  induction counts generalizing l with
  | nil => rfl
  | cons count counts ih =>
    rw [List.sum_cons] at h
    have hrest : (l.drop count).length = counts.sum := by
      rw [List.length_drop]
      omega
    have hfirst : (l.take count).reverse.take count = (l.take count).reverse :=
      List.take_of_length_le (by rw [List.length_reverse, List.length_take]; omega)
    have hreverse : l.reverse = (l.drop count).reverse ++ (l.take count).reverse := by
      rw [← List.reverse_append, List.take_append_drop]
    rw [List.splitLengths_cons, List.map_cons, List.reverse_cons, List.reverse_cons, ← ih hrest,
      hreverse, splitLengths_append (by rw [List.length_reverse, hrest, List.sum_reverse]),
      List.splitLengths_cons, List.splitLengths_nil, hfirst]

/-- A journal is written from its end, transaction by transaction and entry by entry. -/
lemma parts_eq_reverse {journal : SpendJournal} {txs : List Transaction}
    (h : journal.spent.length = Transaction.spentOutputs txs) :
    journal.parts txs = ((journal.byTransaction txs).map List.reverse).reverse := by
  apply splitLengths_reverse
  rw [h, ← sum_reverse_spendCounts, List.sum_reverse]

/-! ## Ambiguous transactions -/

/-- Of the entries of a transaction, one has the header code 0 and a later one has another. -/
def Ambiguous (entries : List SpentOutput) : Prop :=
  ∃ i j : Fin entries.length, i < j ∧ (entries.get i).header.code = 0 ∧
    (entries.get j).header.code ≠ 0

/-- Whether a transaction is ambiguous is found by looking at all pairs of its entries. -/
instance ambiguousDecidable (entries : List SpentOutput) : Decidable (Ambiguous entries) :=
  inferInstanceAs (Decidable (∃ i j : Fin entries.length, i < j ∧
    (entries.get i).header.code = 0 ∧ (entries.get j).header.code ≠ 0))

/-- From its last entry to its first, a transaction can be written unless it is ambiguous. -/
lemma pairwise_mayFollow_reverse_iff {entries : List SpentOutput} :
    entries.reverse.Pairwise MayFollow ↔ ¬ Ambiguous entries := by
  rw [List.pairwise_reverse, List.pairwise_iff_get, Ambiguous]
  constructor
  · rintro h ⟨i, j, hij, hzero, hother⟩
    exact hother (h i j hij hzero)
  · intro h i j hij hzero
    by_contra hother
    exact h ⟨i, j, hij, hzero, hother⟩

/-! ## Complaints of a writer -/

namespace Writer

/-- A writer that refuses an entry blames its caller. -/
lemma code_of_write {w : Writer} {s : SpentOutput} {e : Error} (h : w.write s = .error e) :
    e.code = .internalError := by
  rw [write_eq_error_iff] at h
  rcases w.offer_cases s with ⟨-, hoffer⟩ | ⟨-, -, hoffer⟩ | ⟨last, -, -, -, hoffer⟩
  · rw [hoffer] at h
    cases h
  · rw [hoffer] at h
    cases h
  · rw [hoffer] at h
    cases h
    rfl

lemma code_of_writeAll {w : Writer} {entries : List SpentOutput} {e : Error}
    (h : w.writeAll entries = .error e) : e.code = .internalError := by
  induction entries generalizing w with
  | nil => cases h
  | cons s entries ih =>
    rw [writeAll] at h
    cases hwrite : w.write s with
    | error e' =>
      rw [hwrite] at h
      cases h
      exact code_of_write hwrite
    | ok w' =>
      rw [hwrite] at h
      exact ih h

lemma code_of_writeTransactions {w : Writer} {counts : List ℕ} {entries : List SpentOutput}
    {e : Error} (h : w.writeTransactions counts entries = .error e) : e.code = .internalError := by
  induction counts generalizing w entries with
  | nil => cases h
  | cons count counts ih =>
    rw [writeTransactions] at h
    cases hwrite : w.nextTransaction.writeAll (entries.take count) with
    | error e' =>
      rw [hwrite] at h
      cases h
      exact code_of_writeAll hwrite
    | ok w' =>
      rw [hwrite] at h
      exact ih h

end Writer

/-- A journal that is not written was not meant to be: the block or the order of its entries does not
allow for it. -/
lemma code_of_encode {journal : SpendJournal} {txs : List Transaction} {e : Error}
    (h : journal.encode txs = .error e) : e.code = .internalError := by
  rw [encode] at h
  split at h
  next =>
    split at h
    next e' hwrite =>
      cases h
      exact Writer.code_of_writeTransactions hwrite
    next => cases h
  next =>
    cases h
    rfl

/-- A journal is written exactly if it has one entry for each output that the block spends and none of
the transactions is ambiguous; anything else is refused as the fault of the caller. -/
theorem encode_iff_not_ambiguous (journal : SpendJournal) (txs : List Transaction) :
    ((∃ data, journal.encode txs = .ok data) ↔
      journal.spent.length = Transaction.spentOutputs txs ∧
        ∀ entries ∈ journal.byTransaction txs, ¬ Ambiguous entries) ∧
    ∀ e, journal.encode txs = .error e → e.code = .internalError := by
  refine ⟨?_, fun e => code_of_encode⟩
  simp only [encode_eq_ok_iff_parts, exists_and_left, exists_eq', and_true]
  constructor
  · rintro ⟨hcount, hparts⟩
    refine ⟨hcount.symm, ?_⟩
    intro entries hentries
    rw [parts_eq_reverse hcount.symm] at hparts
    rw [← pairwise_mayFollow_reverse_iff]
    exact hparts _ (List.mem_reverse.mpr (List.mem_map_of_mem hentries))
  · rintro ⟨hcount, hentries⟩
    refine ⟨hcount.symm, ?_⟩
    rw [parts_eq_reverse hcount]
    intro part hpart
    obtain ⟨entries, hmem, rfl⟩ := List.mem_map.mp (List.mem_reverse.mp hpart)
    exact pairwise_mayFollow_reverse_iff.mpr (hentries entries hmem)

/-- The entries of the block of mixed transactions are written for it, and refused for a block in which
one transaction spends them all: there the header code 0 of the first stands in front of others. -/
theorem encode_mixedJournal_iff :
    (∃ data, mixedJournal.encode mixedBlock = .ok data) ∧
    mixedJournal.byTransaction [.withInputs 5] = [mixedJournal.spent] ∧
    Ambiguous mixedJournal.spent ∧
    ¬ ∃ data, mixedJournal.encode [.withInputs 5] = .ok data := by
  have hone : mixedJournal.byTransaction [.withInputs 5] = [mixedJournal.spent] := by decide
  have hambiguous : Ambiguous mixedJournal.spent := by decide
  refine ⟨?_, hone, hambiguous, ?_⟩
  · rw [(encode_iff_not_ambiguous mixedJournal mixedBlock).1]
    decide
  · rw [(encode_iff_not_ambiguous mixedJournal [.withInputs 5]).1, hone]
    rintro ⟨-, hentries⟩
    exact hentries _ (List.mem_singleton_self _) hambiguous

end CoinLedger.SpendJournal
