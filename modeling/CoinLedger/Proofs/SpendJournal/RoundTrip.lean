import Mathlib
import CoinLedger.Proofs.Record
import CoinLedger.Proofs.SpendJournal.Steps

/-!
# Spend journals are read back

`decode_of_encode_eq_ok`: what is written as the journal of a block is read back as that journal, for
every block.

The writer remembers the header code of every entry that it writes in full, and the reader only
those that are not 0.  `Writer.reader` is the reader in step with a writer: it remembers the same
header code, unless that is 0 (`readerMemory`).  One entry keeps the two in step
(`exists_entry_of_write`), whichever way it is written; so do the entries of a transaction
(`exists_tail_of_writeAll`), and the transactions of a block
(`exists_tail_of_writeTransactions`), at whose starts both forget.  All that is asked of the entries
is that their scripts can be stored, as they can if the journal has fewer than `2 ^ 64` bytes.
-/

namespace CoinLedger.SpendJournal

open SpentOutput (repeated remember encodeAs)

/-! ## A reader in step with a writer -/

/-- What a reader remembers where a writer remembers `memory`. -/
def readerMemory (memory : Option ℕ) : Option ℕ := memory.filter (fun code => code ≠ 0)

lemma readerMemory_some_of_ne {code : ℕ} (h : code ≠ 0) : readerMemory (some code) = some code := by
  rw [readerMemory, Option.filter_some, if_pos (decide_eq_true h)]

lemma readerMemory_some_eq_none_iff {code : ℕ} : readerMemory (some code) = none ↔ code = 0 := by
  rw [readerMemory, Option.filter_some]
  split
  next h => simpa using h
  next h => simpa using h

/-- After a header code in full the reader remembers it unless it is 0; where it is 0, nothing must
have been remembered. -/
lemma readerMemory_some_eq_remember {memory : Option ℕ} {code : ℕ}
    (h : code = 0 → memory = none) :
    readerMemory (some code) = remember (readerMemory memory) code := by
  rw [remember]
  split
  next hzero =>
    rw [hzero, h hzero]
    rfl
  next hne => exact readerMemory_some_of_ne hne

namespace Writer

/-- The reader in step with a writer, with `rest` in front of it. -/
def reader (w : Writer) (pos : ℕ) (rest : Bytes) : Reader := ⟨⟨pos, rest⟩, readerMemory w.remembered⟩

lemma nextTransaction_reader (w : Writer) (pos : ℕ) (rest : Bytes) :
    (w.reader pos rest).nextTransaction = w.nextTransaction.reader pos rest := rfl

/-- What a write does: the header code that it writes stands for the header of the entry, where the
reader in step is, and leads the reader to what it has to remember next. -/
lemma exists_code_of_write {w w' : Writer} {s : SpentOutput} (h : w.write s = .ok w') :
    ∃ code, code ≤ Vlq.largest 64 ∧ w'.bytes = w.bytes ++ encodeAs code s ∧
      repeated (readerMemory w.remembered) code = s.header.code ∧
      readerMemory w'.remembered = remember (readerMemory w.remembered) code := by
  rw [write_eq_ok_iff] at h
  rcases w.offer_cases s with ⟨hsame, hoffer⟩ | ⟨-, hfirst, hoffer⟩ | ⟨last, -, -, -, hoffer⟩
  · rw [hoffer] at h
    cases h
    -- a repeat is written as 0; a reader that remembers nothing takes the 0 for the header code 0
    refine ⟨0, Nat.zero_le _, rfl, ?_, ?_⟩
    · rw [hsame, repeated, if_pos rfl]
      by_cases hzero : s.header.code = 0
      · rw [hzero]
        rfl
      · rw [readerMemory_some_of_ne hzero]
        rfl
    · rw [hsame]
      rfl
  · rw [hoffer] at h
    cases h
    refine ⟨s.header.code, s.header.code_le_largest, rfl, ?_, readerMemory_some_eq_remember hfirst⟩
    rw [repeated]
    split
    next hzero =>
      rw [hfirst hzero, hzero]
      rfl
    next => rfl
  · rw [hoffer] at h
    cases h

/-- An entry that is written is read back by the reader in step, and the two stay in step. -/
lemma exists_entry_of_write {w w' : Writer} {s : SpentOutput} (h : w.write s = .ok w') :
    ∃ entry, entry ≠ [] ∧ w'.bytes = w.bytes ++ entry ∧
      (entry.length < UInt64.size → s.out.Storable) ∧
      (s.out.Storable → ∀ pos rest,
        (w.reader pos (entry ++ rest)).read = (.ok s, w'.reader (pos + entry.length) rest)) := by
  obtain ⟨code, hcode, hbytes, hheader, hmemory⟩ := exists_code_of_write h
  refine ⟨encodeAs code s, SpentOutput.encodeAs_ne_nil code s, hbytes,
    SpentOutput.storable_of_length_encodeAs_lt, ?_⟩
  intro hstorable pos rest
  have hadvance : (⟨pos, encodeAs code s ++ rest⟩ : Cursor).advance (encodeAs code s).length =
      ⟨pos + (encodeAs code s).length, rest⟩ := by
    rw [Cursor.advance, List.drop_left, Cursor.remaining, List.length_append, min_eq_left (by omega)]
  rw [Reader.read, reader, SpentOutput.decodeAfter_encodeAs_append hcode hheader hstorable]
  simp only [hadvance, reader, hmemory]

/-! ## The entries of a transaction -/

/-- Entries that are written one after the other are read back one after the other. -/
lemma exists_tail_of_writeAll {entries : List SpentOutput} {w w' : Writer}
    (h : w.writeAll entries = .ok w') :
    ∃ tail, w'.bytes = w.bytes ++ tail ∧ entries.length ≤ tail.length ∧
      (tail.length < UInt64.size → ∀ s ∈ entries, s.out.Storable) ∧
      ((∀ s ∈ entries, s.out.Storable) → ∀ wanted pos rest found,
        Reader.readEntries wanted entries.length (w.reader pos (tail ++ rest)) found =
          .ok (w'.reader (pos + tail.length) rest, entries.reverse ++ found)) := by
  induction entries generalizing w with
  | nil =>
    cases h
    refine ⟨[], (List.append_nil _).symm, le_rfl, fun _ => List.forall_mem_nil _, ?_⟩
    intro _ wanted pos rest found
    rfl
  | cons s entries ih =>
    obtain ⟨w₁, hwrite, hrest⟩ := writeAll_cons_eq_ok_iff.mp h
    obtain ⟨entry, hne, hentry, hfits, hread⟩ := exists_entry_of_write hwrite
    obtain ⟨tail, htail, hcount, hfitAll, hreads⟩ := ih hrest
    have hpos : 0 < entry.length := List.length_pos_iff.mpr hne
    refine ⟨entry ++ tail, ?_, ?_, ?_, ?_⟩
    · rw [htail, hentry, List.append_assoc]
    · rw [List.length_cons, List.length_append]
      omega
    · intro hsize
      rw [List.length_append] at hsize
      exact List.forall_mem_cons.mpr ⟨hfits (by omega), hfitAll (by omega)⟩
    · intro hstorable wanted pos rest found
      obtain ⟨hfirst, hothers⟩ := List.forall_mem_cons.mp hstorable
      rw [List.length_append]
      have hstart : (w.reader pos (entry ++ (tail ++ rest))).atEnd = false := by
        cases entry with
        | nil => exact absurd rfl hne
        | cons b entry => rfl
      rw [List.append_assoc, List.length_cons, Reader.readEntries, hstart,
        hread hfirst pos (tail ++ rest)]
      simp only [Bool.false_eq_true, if_false]
      rw [hreads hothers, List.reverse_cons, List.append_assoc, List.singleton_append,
        Nat.add_assoc]

/-! ## The transactions of a block -/

/-- Transactions that are written one after the other are read back one after the other, if the
entries are as many as the transactions spend. -/
lemma exists_tail_of_writeTransactions {counts : List ℕ} {entries : List SpentOutput}
    {w w' : Writer} (h : w.writeTransactions counts entries = .ok w')
    (hcount : entries.length = counts.sum) :
    ∃ tail, w'.bytes = w.bytes ++ tail ∧ entries.length ≤ tail.length ∧
      (tail.length < UInt64.size → ∀ s ∈ entries, s.out.Storable) ∧
      ((∀ s ∈ entries, s.out.Storable) → ∀ wanted pos rest found,
        Reader.readTransactions wanted counts (w.reader pos (tail ++ rest)) found =
          .ok (w'.reader (pos + tail.length) rest, entries.reverse ++ found)) := by
  induction counts generalizing w entries with
  | nil =>
    cases h
    obtain rfl : entries = [] := List.length_eq_zero_iff.mp hcount
    refine ⟨[], (List.append_nil _).symm, le_rfl, fun _ => List.forall_mem_nil _, ?_⟩
    intro _ wanted pos rest found
    rfl
  | cons count counts ih =>
    rw [List.sum_cons] at hcount
    have htake : (entries.take count).length = count := List.length_take_of_le (by omega)
    obtain ⟨w₁, hwrite, hrest⟩ := writeTransactions_cons_eq_ok_iff.mp h
    obtain ⟨first, hfirst, hfirstCount, hfirstFits, hfirstRead⟩ := exists_tail_of_writeAll hwrite
    obtain ⟨tail, htail, htailCount, htailFits, htailRead⟩ :=
      ih hrest (by rw [List.length_drop]; omega)
    refine ⟨first ++ tail, ?_, ?_, ?_, ?_⟩
    · rw [htail, hfirst, List.append_assoc]
      rfl
    · rw [List.length_drop] at htailCount
      rw [List.length_append]
      omega
    · intro hsize s hs
      rw [List.length_append] at hsize
      rw [← List.take_append_drop count entries, List.mem_append] at hs
      rcases hs with hs | hs
      · exact hfirstFits (by omega) s hs
      · exact htailFits (by omega) s hs
    · intro hstorable wanted pos rest found
      rw [List.length_append]
      rw [htake] at hfirstRead
      have horder : (entries.drop count).reverse ++ (entries.take count).reverse =
          entries.reverse := by
        rw [← List.reverse_append, List.take_append_drop]
      rw [List.append_assoc, Reader.readTransactions, nextTransaction_reader,
        hfirstRead (fun s hs => hstorable s (List.mem_of_mem_take hs))]
      dsimp only
      rw [htailRead (fun s hs => hstorable s (List.mem_of_mem_drop hs)), ← List.append_assoc, horder,
        Nat.add_assoc]

end Writer

/-! ## Journals -/

/-- A block spends as many outputs as its transactions do, in whatever order they are counted. -/
lemma sum_reverse_spendCounts (txs : List Transaction) :
    (Transaction.spendCounts txs).reverse.sum = Transaction.spentOutputs txs := by
  rw [List.sum_reverse, List.sum_eq_foldr]
  rfl

/-- A journal is written if it has one entry for each output that the block spends and the writer
takes them all. -/
lemma encode_eq_ok_iff {journal : SpendJournal} {txs : List Transaction} {data : Bytes} :
    journal.encode txs = .ok data ↔
      Transaction.spentOutputs txs = journal.spent.length ∧
        ∃ w, Writer.empty.writeTransactions (Transaction.spendCounts txs).reverse
          journal.spent.reverse = .ok w ∧ w.bytes = data := by
  rw [encode]
  split
  next hcount =>
    cases hwrite : Writer.empty.writeTransactions (Transaction.spendCounts txs).reverse
        journal.spent.reverse with
    | error e =>
      constructor
      · intro h
        cases h
      · rintro ⟨-, w, hw, -⟩
        cases hw
    | ok w =>
      constructor
      · intro h
        exact ⟨hcount, w, rfl, Except.ok.inj h⟩
      · rintro ⟨-, w', hw, rfl⟩
        cases hw
        rfl
  next hcount =>
    constructor
    · intro h
      cases h
    · rintro ⟨hcount', -⟩
      exact absurd hcount' hcount

/-- Entries that are written for the transactions of a block are read back for them, if the lengths of
their scripts can be. -/
lemma decode_of_storable {spent : List SpentOutput} {txs : List Transaction} {w : Writer}
    (hcount : Transaction.spentOutputs txs = spent.length)
    (h : Writer.empty.writeTransactions (Transaction.spendCounts txs).reverse spent.reverse = .ok w)
    (hstorable : ∀ s ∈ spent, s.out.Storable) : decode w.bytes txs = .ok ⟨spent⟩ := by
  obtain ⟨tail, htail, hlength, -, hread⟩ := Writer.exists_tail_of_writeTransactions h
    (by rw [List.length_reverse, sum_reverse_spendCounts, hcount])
  have hbytes : w.bytes = tail := htail
  rw [List.length_reverse] at hlength
  rw [hbytes, decode]
  split
  next hempty =>
    -- an empty journal has no entries, since every entry takes a byte
    rw [hempty, List.length_nil, Nat.le_zero] at hlength
    rw [if_pos (hcount.trans hlength), List.length_eq_zero_iff.mp hlength]
  next hne =>
    have hall := hread (fun s hs => hstorable s (List.mem_reverse.mp hs))
      (Transaction.spentOutputs txs) 0 [] []
    rw [List.append_nil, List.reverse_reverse, List.append_nil] at hall
    have hstart : Reader.start tail = Writer.empty.reader 0 tail := rfl
    rw [hstart, hall]
    rfl

/-- Entries that are written for the transactions of a block are read back for them, if there are fewer
than `2 ^ 64` bytes. -/
lemma decode_of_writeTransactions {spent : List SpentOutput} {txs : List Transaction} {w : Writer}
    (hcount : Transaction.spentOutputs txs = spent.length)
    (h : Writer.empty.writeTransactions (Transaction.spendCounts txs).reverse spent.reverse = .ok w)
    (hsize : w.bytes.length < UInt64.size) : decode w.bytes txs = .ok ⟨spent⟩ := by
  obtain ⟨tail, htail, -, hfits, -⟩ := Writer.exists_tail_of_writeTransactions h
    (by rw [List.length_reverse, sum_reverse_spendCounts, hcount])
  have hbytes : w.bytes = tail := htail
  rw [hbytes] at hsize
  exact decode_of_storable hcount h
    (fun s hs => hfits hsize s (List.mem_reverse.mpr hs))

/-- What is written as the journal of a block is read back as that journal. -/
theorem decode_of_encode_eq_ok {journal : SpendJournal} {txs : List Transaction} {data : Bytes}
    (h : journal.encode txs = .ok data) (hsize : data.length < UInt64.size) :
    decode data txs = .ok journal := by
  obtain ⟨hcount, w, hwrite, rfl⟩ := encode_eq_ok_iff.mp h
  exact decode_of_writeTransactions hcount hwrite hsize

/-- A block with two coinbase transactions and a transaction without inputs between the others. -/
def mixedBlock : List Transaction :=
  [.coinbase, .withInputs 1, ⟨[]⟩, .coinbase, .withInputs 4]

/-- Entries for that block in which headers repeat and change and the height 0 occurs. -/
def mixedJournal : SpendJournal :=
  ⟨[⟨⟨0, false⟩, 0, []⟩, ⟨⟨7, true⟩, 12, [0x6a]⟩, ⟨⟨9, false⟩, 12, [0x6a]⟩,
    ⟨⟨9, false⟩, 50000, [0x51, 0xac]⟩,
    ⟨⟨0, false⟩, 1, Script.payToKeyHash (List.replicate 20 3)⟩]⟩

/-- The stored form of these entries. -/
def mixedData : Bytes :=
  [0, 1, 0] ++ List.replicate 20 3 ++ [18, 0, 45, 8, 0x51, 0xac, 0, 101, 7, 0x6a] ++
    [15, 0, 101, 7, 0x6a] ++ [0, 0, 6]

/-- A journal with all of that is read back. -/
theorem decode_mixedData :
    mixedJournal.encode mixedBlock = .ok mixedData ∧ mixedData.length < UInt64.size ∧
      decode mixedData mixedBlock = .ok mixedJournal := by
  have h : mixedJournal.encode mixedBlock = .ok mixedData := by cbv
  have hsize : mixedData.length < UInt64.size := by decide
  exact ⟨h, hsize, decode_of_encode_eq_ok h hsize⟩

end CoinLedger.SpendJournal
