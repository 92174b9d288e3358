import Mathlib
import CoinLedger.Proofs.Record.Grammar
import CoinLedger.Proofs.SpendJournal.Writable

/-!
# What is read can be written again

A journal that is read need not have been written here: reserved numbers may differ from 0, a header
may be repeated in full, and a script may be stored in a form that is never written for it.  What is
read from it is a journal that can be written, and that is read back from what is written
(`rewritten_of_decode`).

A reader never remembers the header code 0, so behind an entry with another header code no entry of the
same transaction is read with the header code 0 (`Reader.fresh_or_remembered_of_read`).  That is all
that a writer asks of the entries of a transaction, and the invariant is carried through the entries of
a transaction (`Reader.exists_entries_of_readEntries`) and through the transactions of a block
(`Reader.exists_entries_of_readTransactions`).
-/

namespace CoinLedger.SpendJournal

open SpentOutput (repeated remember)

/-! ## One entry -/

/-- What an entry that is read has to do with the header code that is remembered. -/
lemma exists_code_of_decodeAfter {remembered memory : Option ℕ} {data : Bytes}
    {d : Decoded SpentOutput}
    (h : SpentOutput.decodeAfter remembered data = (.ok d, memory)) :
    ∃ code, d.value.header.code = repeated remembered code ∧ memory = remember remembered code ∧
      d.value.out.Storable := by
  rw [SpentOutput.decodeAfter] at h
  cases hheader : SpentOutput.decodeHeader data with
  | error e =>
    rw [hheader] at h
    cases h
  | ok field =>
    obtain ⟨code, pos, rest⟩ := field
    rw [hheader] at h
    obtain ⟨hout, rfl⟩ := Prod.mk.inj h
    obtain ⟨header, out, hcode, hread, rfl⟩ := SpentOutput.decodeOutput_eq_ok_iff.mp hout
    exact ⟨code, hcode.symm, rfl, TxOut.storable_of_decode hread⟩

namespace Reader

/-- An entry is read with the header code 0 only where nothing is remembered; any other header code is
the one that is remembered behind it. -/
lemma fresh_or_remembered_of_read {r r' : Reader} {s : SpentOutput} (h : r.read = (.ok s, r'))
    (hmemory : r.remembered ≠ some 0) :
    s.out.Storable ∧
      ((s.header.code = 0 ∧ r.remembered = none ∧ r'.remembered = none) ∨
        (s.header.code ≠ 0 ∧ r'.remembered = some s.header.code)) := by
  rw [Reader.read] at h
  cases hdecode : SpentOutput.decodeAfter r.remembered r.cursor.rest with
  | mk outcome memory =>
    rw [hdecode] at h
    cases outcome with
    | error e => cases h
    | ok d =>
      cases h
      obtain ⟨code, hheader, rfl, hstorable⟩ := exists_code_of_decodeAfter hdecode
      refine ⟨hstorable, ?_⟩
      rw [hheader, repeated, remember]
      by_cases hzero : code = 0
      · rw [if_pos hzero, if_pos hzero]
        cases hr : r.remembered with
        | none => exact Or.inl ⟨rfl, rfl, rfl⟩
        | some last =>
          rw [hr] at hmemory
          exact Or.inr ⟨fun hlast => hmemory (congrArg some hlast), rfl⟩
      · rw [if_neg hzero, if_neg hzero]
        exact Or.inr ⟨hzero, rfl⟩

/-- The header code 0 is not remembered behind an entry if it was not remembered in front of it. -/
lemma remembered_ne_zero_of_read {r r' : Reader} {s : SpentOutput} (h : r.read = (.ok s, r'))
    (hmemory : r.remembered ≠ some 0) : r'.remembered ≠ some 0 := by
  rcases (fresh_or_remembered_of_read h hmemory).2 with ⟨-, -, hnone⟩ | ⟨hne, hsome⟩
  · rw [hnone]
    exact (Option.some_ne_none 0).symm
  · rw [hsome]
    exact fun heq => hne (Option.some.inj heq)

/-! ## The entries of a transaction and of a block -/

/-- The entries that are read one after the other may follow each other, and none of them has the
header code 0 if another one is remembered in front of them. -/
lemma exists_entries_of_readEntries {wanted count : ℕ} {r r' : Reader}
    {found found' : List SpentOutput} (h : readEntries wanted count r found = .ok (r', found'))
    (hmemory : r.remembered ≠ some 0) :
    ∃ entries : List SpentOutput, entries.length = count ∧ found' = entries.reverse ++ found ∧
      (∀ s ∈ entries, s.out.Storable) ∧ entries.Pairwise MayFollow ∧
        (r.remembered ≠ none → ∀ s ∈ entries, s.header.code ≠ 0) := by
  induction count generalizing r found with
  | zero =>
    cases h
    exact ⟨[], rfl, rfl, List.forall_mem_nil _, List.Pairwise.nil, fun _ => List.forall_mem_nil _⟩
  | succ count ih =>
    obtain ⟨s, r₁, -, hread, hrest⟩ := readEntries_succ_eq_ok_iff.mp h
    obtain ⟨hstorable, hstep⟩ := fresh_or_remembered_of_read hread hmemory
    obtain ⟨entries, rfl, rfl, hall, hpairs, hothers⟩ :=
      ih hrest (remembered_ne_zero_of_read hread hmemory)
    refine ⟨s :: entries, rfl, ?_, List.forall_mem_cons.mpr ⟨hstorable, hall⟩,
      List.pairwise_cons.mpr ⟨?_, hpairs⟩, ?_⟩
    · rw [List.reverse_cons, List.append_assoc, List.singleton_append]
    · intro t ht hzero
      rcases hstep with ⟨hfresh, -, -⟩ | ⟨-, hsome⟩
      · exact hfresh
      · have hmemory₁ : r₁.remembered ≠ none := by
          rw [hsome]
          exact Option.some_ne_none _
        exact absurd hzero (hothers hmemory₁ t ht)
    · intro hother
      rcases hstep with ⟨-, hnone, -⟩ | ⟨hne, hsome⟩
      · exact absurd hnone hother
      · have hmemory₁ : r₁.remembered ≠ none := by
          rw [hsome]
          exact Option.some_ne_none _
        exact List.forall_mem_cons.mpr ⟨hne, hothers hmemory₁⟩

/-- The entries that are read for transactions are as many as the transactions spend, and those of
each transaction may follow each other. -/
lemma exists_entries_of_readTransactions {wanted : ℕ} {counts : List ℕ} {r r' : Reader}
    {found found' : List SpentOutput}
    (h : readTransactions wanted counts r found = .ok (r', found')) :
    ∃ entries : List SpentOutput, entries.length = counts.sum ∧ found' = entries.reverse ++ found ∧
      (∀ s ∈ entries, s.out.Storable) ∧
        ∀ part ∈ counts.splitLengths entries, part.Pairwise MayFollow := by
  induction counts generalizing r found with
  | nil =>
    cases h
    exact ⟨[], rfl, rfl, List.forall_mem_nil _, List.forall_mem_nil _⟩
  | cons count counts ih =>
    obtain ⟨r₁, found₁, hread, hrest⟩ := readTransactions_cons_eq_ok_iff.mp h
    obtain ⟨first, rfl, rfl, hfirst, hpairs, -⟩ := exists_entries_of_readEntries hread
      (Option.some_ne_none 0).symm
    obtain ⟨entries, hcount, rfl, hall, hparts⟩ := ih hrest
    refine ⟨first ++ entries, ?_, ?_, List.forall_mem_append.mpr ⟨hfirst, hall⟩, ?_⟩
    · rw [List.length_append, hcount, List.sum_cons]
    · rw [List.reverse_append, List.append_assoc]
    · rw [List.splitLengths_cons, List.take_left, List.drop_left]
      exact List.forall_mem_cons.mpr ⟨hpairs, hparts⟩

end Reader

/-! ## Journals -/

/-- A journal that is read is what the transactions of the block give, unless the block spends nothing
and the journal is empty. -/
lemma exists_readTransactions_of_decode {data : Bytes} {txs : List Transaction}
    {journal : SpendJournal} (h : decode data txs = .ok journal) :
    (Transaction.spentOutputs txs = 0 ∧ journal.spent = []) ∨
      ∃ r, Reader.readTransactions (Transaction.spentOutputs txs)
        (Transaction.spendCounts txs).reverse (Reader.start data) [] = .ok (r, journal.spent) := by
  rw [decode] at h
  split at h
  next =>
    split at h
    next hnone =>
      cases h
      exact Or.inl ⟨hnone, rfl⟩
    next => cases h
  next =>
    cases hread : Reader.readTransactions (Transaction.spentOutputs txs)
        (Transaction.spendCounts txs).reverse (Reader.start data) [] with
    | error e =>
      rw [hread] at h
      cases h
    | ok state =>
      obtain ⟨r, spent⟩ := state
      rw [hread] at h
      dsimp only at h
      split at h
      next =>
        cases h
        exact Or.inr ⟨r, rfl⟩
      next => cases h

/-- The entries of a journal that is read, in the order in which they are read. -/
lemma exists_entries_of_decode {data : Bytes} {txs : List Transaction} {journal : SpendJournal}
    (h : decode data txs = .ok journal) :
    ∃ entries : List SpentOutput, journal.spent = entries.reverse ∧
      entries.length = (Transaction.spendCounts txs).reverse.sum ∧
        (∀ s ∈ entries, s.out.Storable) ∧
          ∀ part ∈ (Transaction.spendCounts txs).reverse.splitLengths entries,
            part.Pairwise MayFollow := by
  rcases exists_readTransactions_of_decode h with ⟨hnone, hspent⟩ | ⟨r, hread⟩
  · -- a block that spends nothing may have transactions, but none with entries
    have hflatten := List.flatten_splitLengths ([] : List SpentOutput)
      (Transaction.spendCounts txs).reverse (Nat.zero_le _)
    refine ⟨[], hspent, ?_, List.forall_mem_nil _, ?_⟩
    · rw [sum_reverse_spendCounts, hnone]
      rfl
    · intro part hpart
      rw [List.flatten_eq_nil_iff.mp hflatten part hpart]
      exact List.Pairwise.nil
  · obtain ⟨entries, hcount, hspent, hall, hparts⟩ :=
      Reader.exists_entries_of_readTransactions hread
    rw [List.append_nil] at hspent
    exact ⟨entries, hspent, hcount, hall, hparts⟩

/-- What is read for a block: as many entries as it spends, in an order in which they can be written,
with scripts that can be stored. -/
lemma entries_of_decode {data : Bytes} {txs : List Transaction} {journal : SpendJournal}
    (h : decode data txs = .ok journal) :
    Transaction.spentOutputs txs = journal.spent.length ∧
      (∀ part ∈ journal.parts txs, part.Pairwise MayFollow) ∧
        ∀ s ∈ journal.spent, s.out.Storable := by
  obtain ⟨entries, hspent, hcount, hall, hparts⟩ := exists_entries_of_decode h
  refine ⟨?_, ?_, ?_⟩
  · rw [hspent, List.length_reverse, hcount, sum_reverse_spendCounts]
  · rw [parts, hspent, List.reverse_reverse]
    exact hparts
  · intro s hs
    rw [hspent, List.mem_reverse] at hs
    exact hall s hs

/-- Whatever is read as the journal of a block has one entry for each output that the block spends, can
be written for the block, and is read back from what is written. -/
theorem rewritten_of_decode {data : Bytes} {txs : List Transaction} {journal : SpendJournal}
    (h : decode data txs = .ok journal) :
    journal.spent.length = Transaction.spentOutputs txs ∧
      ∃ written, journal.encode txs = .ok written ∧ decode written txs = .ok journal := by
  obtain ⟨hcount, hparts, hstorable⟩ := entries_of_decode h
  have hencode : journal.encode txs = .ok (partBytes (journal.parts txs)) :=
    encode_eq_ok_iff_parts.mpr ⟨hcount, hparts, rfl⟩
  obtain ⟨-, w, hwrite, hbytes⟩ := encode_eq_ok_iff.mp hencode
  refine ⟨hcount.symm, partBytes (journal.parts txs), hencode, ?_⟩
  rw [← hbytes]
  exact decode_of_storable hcount hwrite hstorable

/-- A journal for the block of mixed transactions as it is never written: reserved numbers other than 0,
a header repeated in full, a template stored raw, and 32 bytes behind the tag 2 that belong to no
point. -/
def foreignData : Bytes :=
  [18, 5, 45, 31] ++ Script.payToKeyHash (List.replicate 20 7) ++
    [18, 0x80, 0x00, 101, 2] ++ List.replicate 32 5 ++ [15, 1, 101, 7, 0x6a] ++
    [0, 101, 7, 0x6a] ++ [0, 0, 6]

/-- What is read from that journal. -/
def foreignJournal : SpendJournal :=
  ⟨[⟨⟨0, false⟩, 0, []⟩, ⟨⟨7, true⟩, 12, [0x6a]⟩, ⟨⟨7, true⟩, 12, [0x6a]⟩,
    ⟨⟨9, false⟩, 12, Script.payToShortKey (2 :: List.replicate 32 5)⟩,
    ⟨⟨9, false⟩, 50000, Script.payToKeyHash (List.replicate 20 7)⟩]⟩

/-- It is read, and what is read from it can be written, in other bytes, and is read back from them. -/
theorem rewritten_of_decode_foreignData :
    decode foreignData mixedBlock = .ok foreignJournal ∧
      ∃ written, foreignJournal.encode mixedBlock = .ok written ∧ written ≠ foreignData ∧
        decode written mixedBlock = .ok foreignJournal := by
  have hread : decode foreignData mixedBlock = .ok foreignJournal := by decide
  have hother : foreignJournal.encode mixedBlock ≠ .ok foreignData := by decide +kernel
  obtain ⟨-, written, hwritten, hback⟩ := rewritten_of_decode hread
  refine ⟨hread, written, hwritten, ?_, hback⟩
  rintro rfl
  exact hother hwritten

end CoinLedger.SpendJournal
