import Mathlib
import CoinLedger.Proofs.SpendJournal.Writable

/-!
# Reading the journals of two blocks in a row

A journal that is read for a block says where it ends: the bytes behind it are left to the transactions
in front of the block.  So the journal of two blocks in a row is read as the one of the second block,
and then as the one of the first (`decode_of_joined_blocks`).

What is read of the first block does not depend on what stands before it, except for the offset of a
failure, which counts from the start of the whole journal.  `Later n f` compares an outcome with the
same outcome of a reader that has read `n` bytes more, and it is kept by the entries of a transaction
(`Reader.later_readEntries`) and by the transactions of a block (`Reader.later_readBlock`).
-/

namespace CoinLedger

/-! ## Outcomes of a reader that is further on -/

/-- The second of two outcomes comes from a reader that has read `n` bytes more: it has the value that
`f` makes of the value of the first, and its failure has the same code and counts the `n` bytes. -/
inductive Later {α β : Type} (n : ℕ) (f : α → β) : Except Error α → Except Error β → Prop
  /-- both succeed -/
  | ok (a : α) : Later n f (.ok a) (.ok (f a))
  /-- both fail -/
  | error {e e' : Error} (hcode : e'.code = e.code) (hread : e'.bytesRead = n + e.bytesRead) :
    Later n f (.error e) (.error e')

namespace Later

variable {α β γ : Type} {n m : ℕ} {f : α → β} {g : β → γ}

lemma trans {x : Except Error α} {y : Except Error β} {z : Except Error γ} (h : Later n f x y)
    (h' : Later m g y z) : Later (m + n) (g ∘ f) x z := by
  cases h with
  | ok a =>
    cases h'
    exact .ok a
  | error hcode hread =>
    obtain - | ⟨hcode', hread'⟩ := h'
    refine .error (hcode'.trans hcode) ?_
    rw [hread', hread, Nat.add_assoc]

/-- Outcomes at the same place may change sides. -/
lemma symm {x y : Except Error α} (h : Later 0 id x y) : Later 0 id y x := by
  cases h with
  | ok a => exact .ok a
  | error hcode hread => exact .error hcode.symm (by omega)

lemma of_ok {a : α} {y : Except Error β} (h : Later n f (.ok a) y) : y = .ok (f a) := by
  cases h
  rfl

lemma of_error {e : Error} {y : Except Error β} (h : Later n f (.error e) y) :
    ∃ e', y = .error e' ∧ e'.code = e.code ∧ e'.bytesRead = n + e.bytesRead := by
  obtain - | ⟨hcode, hread⟩ := h
  exact ⟨_, rfl, hcode, hread⟩

end Later

/-! ## Entries at the front -/

namespace SpentOutput

/-- An entry is read from the bytes at the front, whatever stands behind them, and so is the header
code to remember. -/
lemma exists_front_of_decodeAfter {remembered memory : Option ℕ} {data : Bytes}
    {d : Decoded SpentOutput} (h : decodeAfter remembered data = (.ok d, memory)) :
    ∃ front rest, data = front ++ rest ∧ front ≠ [] ∧ d.bytesRead = front.length ∧
      ∀ rest', decodeAfter remembered (front ++ rest') = (.ok d, memory) := by
  unfold decodeAfter at h
  cases hheader : decodeHeader data with
  | error e =>
    rw [hheader] at h
    cases h
  | ok field =>
    obtain ⟨code, cursor⟩ := field
    rw [hheader] at h
    obtain ⟨hout, rfl⟩ := Prod.mk.inj h
    obtain ⟨front, behind, rfl, -, rfl, hall⟩ := readsHeader_decodeHeader.exists_front hheader
    obtain ⟨second, rest, rfl, hsecond, hbytes, hall'⟩ := exists_front_of_decodeOutput hout
    refine ⟨front ++ second, rest, (List.append_assoc _ _ _).symm,
      List.append_ne_nil_of_right_ne_nil _ hsecond, by rw [hbytes, List.length_append], ?_⟩
    intro rest'
    rw [List.append_assoc, decodeAfter, hall _ (List.append_ne_nil_of_left_ne_nil hsecond _)]
    dsimp only
    rw [hall']

end SpentOutput

namespace SpendJournal

namespace Reader

/-- A reader reads an entry from the bytes at the front, wherever it stands and whatever stands behind
them. -/
lemma exists_front_of_read {pos : ℕ} {data : Bytes} {memory : Option ℕ} {s : SpentOutput}
    {r : Reader} (h : read ⟨⟨pos, data⟩, memory⟩ = (.ok s, r)) :
    ∃ front rest memory', data = front ++ rest ∧ front ≠ [] ∧
      r = ⟨⟨pos + front.length, rest⟩, memory'⟩ ∧
      ∀ pos' rest', read ⟨⟨pos', front ++ rest'⟩, memory⟩ =
        (.ok s, ⟨⟨pos' + front.length, rest'⟩, memory'⟩) := by
  unfold read at h
  dsimp only at h
  cases hdecode : SpentOutput.decodeAfter memory data with
  | mk outcome memory' =>
    rw [hdecode] at h
    cases outcome with
    | error e => cases h
    | ok d =>
      obtain ⟨front, rest, rfl, hne, hbytes, hall⟩ :=
        SpentOutput.exists_front_of_decodeAfter hdecode
      have hread : ∀ pos' rest', read ⟨⟨pos', front ++ rest'⟩, memory⟩ =
          (.ok d.value, ⟨⟨pos' + front.length, rest'⟩, memory'⟩) := by
        intro pos' rest'
        unfold read
        simp only [hall, hbytes, Cursor.advance, Cursor.remaining, List.length_append,
          List.drop_left, Nat.le_add_right, min_eq_left]
      refine ⟨front, rest, memory', rfl, hne, ?_, ?_⟩
      · simp only [hbytes, Cursor.advance, Cursor.remaining, List.length_append, List.drop_left,
          Nat.le_add_right, min_eq_left, Prod.mk.injEq] at h
        exact h.2.symm
      · obtain ⟨hs, -⟩ := Prod.mk.inj h
        rw [← Except.ok.inj hs]
        exact hread

/-- Entries are read from the bytes at the front, wherever the reader stands and whatever stands behind
them. -/
lemma exists_front_of_readEntries {wanted count pos : ℕ} {data : Bytes} {memory : Option ℕ}
    {found found' : List SpentOutput} {r : Reader}
    (h : readEntries wanted count ⟨⟨pos, data⟩, memory⟩ found = .ok (r, found')) :
    ∃ front rest memory', data = front ++ rest ∧ r = ⟨⟨pos + front.length, rest⟩, memory'⟩ ∧
      ∀ wanted' pos' rest', readEntries wanted' count ⟨⟨pos', front ++ rest'⟩, memory⟩ found =
        .ok (⟨⟨pos' + front.length, rest'⟩, memory'⟩, found') := by
  induction count generalizing pos data memory found with
  | zero =>
    cases h
    exact ⟨[], data, memory, rfl, rfl, fun _ _ _ => rfl⟩
  | succ count ih =>
    obtain ⟨s, r₁, -, hread, hothers⟩ := readEntries_succ_eq_ok_iff.mp h
    obtain ⟨first, behind, memory₁, rfl, hne, rfl, hall⟩ := exists_front_of_read hread
    obtain ⟨second, rest, memory', rfl, rfl, hall'⟩ := ih hothers
    refine ⟨first ++ second, rest, memory', (List.append_assoc _ _ _).symm, ?_, ?_⟩
    · rw [List.length_append, Nat.add_assoc]
    · intro wanted' pos' rest'
      have hmore : (⟨⟨pos', first ++ (second ++ rest')⟩, memory⟩ : Reader).atEnd = false :=
        List.isEmpty_eq_false_iff.mpr (List.append_ne_nil_of_left_ne_nil hne _)
      rw [List.append_assoc, readEntries, hmore, hall]
      simp only [Bool.false_eq_true, if_false]
      rw [hall', List.length_append, Nat.add_assoc]

/-! ## The transactions of a block -/

/-- Reads the transactions of a block, behind which the journal has to end. -/
def readBlock (wanted : ℕ) (counts : List ℕ) (r : Reader) (found : List SpentOutput) :
    Except Error SpendJournal :=
  match readTransactions wanted counts r found with
  | .error e => .error e
  | .ok (r, spent) =>
    if r.atEnd then .ok ⟨spent⟩ else .error ⟨.journalLeftover r.cursor.remaining wanted, r.pos⟩

lemma readBlock_cons (wanted count : ℕ) (counts : List ℕ) (r : Reader) (found : List SpentOutput) :
    readBlock wanted (count :: counts) r found =
      match readEntries wanted count r.nextTransaction found with
      | .error e => .error e
      | .ok (r, found) => readBlock wanted counts r found := by
  unfold readBlock
  rw [readTransactions]
  cases readEntries wanted count r.nextTransaction found <;> rfl

/-- Without bytes only transactions that spend nothing are read. -/
lemma readBlock_nil (wanted : ℕ) (counts : List ℕ) (pos : ℕ) (memory : Option ℕ)
    (found : List SpentOutput) :
    readBlock wanted counts ⟨⟨pos, []⟩, memory⟩ found =
      if counts.sum = 0 then .ok ⟨found⟩ else .error ⟨.journalEnded found.length wanted, pos⟩ := by
  induction counts generalizing memory with
  | nil => rfl
  | cons count counts ih =>
    rw [readBlock_cons, List.sum_cons]
    cases count with
    | zero =>
      rw [Nat.zero_add]
      exact ih none
    | succ count =>
      rw [if_neg (by omega)]
      rfl

/-- What is read for the transactions of a block leaves the bytes behind it to other transactions. -/
lemma exists_readBlock_append {wanted : ℕ} {counts : List ℕ} {pos : ℕ} {data : Bytes}
    {memory : Option ℕ} {found : List SpentOutput} {journal : SpendJournal}
    (h : readBlock wanted counts ⟨⟨pos, data⟩, memory⟩ found = .ok journal) :
    ∃ memory', ∀ wanted' more pos' rest,
      readBlock wanted' (counts ++ more) ⟨⟨pos', data ++ rest⟩, memory⟩ found =
        readBlock wanted' more ⟨⟨pos' + data.length, rest⟩, memory'⟩ journal.spent := by
  induction counts generalizing pos data memory found with
  | nil =>
    unfold readBlock readTransactions at h
    dsimp only at h
    split at h
    next hend =>
      obtain rfl : data = [] := List.isEmpty_iff.mp hend
      cases h
      exact ⟨memory, fun _ _ _ _ => rfl⟩
    next => cases h
  | cons count counts ih =>
    rw [readBlock_cons] at h
    cases hread : readEntries wanted count ⟨⟨pos, data⟩, none⟩ found with
    | error e =>
      rw [nextTransaction, hread] at h
      cases h
    | ok state =>
      obtain ⟨r, found'⟩ := state
      rw [nextTransaction, hread] at h
      obtain ⟨front, behind, memory₁, rfl, rfl, hall⟩ := exists_front_of_readEntries hread
      obtain ⟨memory', hrest⟩ := ih h
      refine ⟨memory', ?_⟩
      intro wanted' more pos' rest
      rw [List.cons_append, readBlock_cons, nextTransaction]
      dsimp only
      rw [List.append_assoc, hall]
      dsimp only
      rw [hrest, List.length_append, Nat.add_assoc]

/-! ## The same bytes further on -/

/-- The reader with `n` more bytes before it. -/
def further (n : ℕ) (r : Reader) : Reader := ⟨⟨n + r.cursor.pos, r.cursor.rest⟩, r.remembered⟩

/-- An entry is the same further on, and its failure counts the bytes before it. -/
lemma read_further (n : ℕ) (r : Reader) :
    (r.further n).read = (r.read.1.mapError (Error.after n), r.read.2.further n) := by
  unfold read further
  dsimp only
  cases SpentOutput.decodeAfter r.remembered r.cursor.rest with
  | mk outcome memory =>
    cases outcome with
    | ok d => simp only [Except.mapError, Cursor.advance, Cursor.remaining, Nat.add_assoc]
    | error e => simp only [Except.mapError, Error.after, pos, Nat.add_assoc]

/-- The entries of a transaction are the same further on, behind the entries `more`. -/
lemma later_readEntries (n wanted wanted' count : ℕ) (r : Reader) (found more : List SpentOutput) :
    Later n (fun state => (further n state.1, state.2 ++ more)) (readEntries wanted count r found)
      (readEntries wanted' count (r.further n) (found ++ more)) := by
  induction count generalizing r found with
  | zero => exact .ok (r, found)
  | succ count ih =>
    have hend : (r.further n).atEnd = r.atEnd := rfl
    rw [readEntries, readEntries, hend, read_further]
    split
    next => exact .error rfl rfl
    next =>
      cases r.read with
      | mk outcome r₁ =>
        cases outcome with
        | error e => exact .error rfl rfl
        | ok s => exact ih r₁ (s :: found)

/-- The transactions of a block are the same further on, behind the entries `more`, and whatever is
remembered in front of them. -/
lemma later_readBlock (n wanted wanted' : ℕ) (counts : List ℕ) (cursor : Cursor)
    (memory memory' : Option ℕ) (found more : List SpentOutput) :
    Later n (fun journal => ⟨journal.spent ++ more⟩) (readBlock wanted counts ⟨cursor, memory⟩ found)
      (readBlock wanted' counts ⟨⟨n + cursor.pos, cursor.rest⟩, memory'⟩ (found ++ more)) := by
  induction counts generalizing cursor memory memory' found with
  | nil =>
    have hend : (⟨⟨n + cursor.pos, cursor.rest⟩, memory'⟩ : Reader).atEnd =
        (⟨cursor, memory⟩ : Reader).atEnd := rfl
    unfold readBlock readTransactions
    dsimp only
    rw [hend]
    split
    next => exact .ok (SpendJournal.mk found)
    next => exact .error rfl rfl
  | cons count counts ih =>
    rw [readBlock_cons, readBlock_cons]
    have hentries := later_readEntries n wanted wanted' count ⟨cursor, none⟩ found more
    cases hread : readEntries wanted count ⟨cursor, none⟩ found with
    | error e =>
      rw [hread] at hentries
      obtain ⟨e', hread', hcode, hbytes⟩ := hentries.of_error
      have hnext : readEntries wanted' count
          (nextTransaction ⟨⟨n + cursor.pos, cursor.rest⟩, memory'⟩) (found ++ more) = .error e' :=
        hread'
      rw [nextTransaction, hread, hnext]
      exact .error hcode hbytes
    | ok state =>
      obtain ⟨r, found'⟩ := state
      rw [hread] at hentries
      have hnext : readEntries wanted' count
          (nextTransaction ⟨⟨n + cursor.pos, cursor.rest⟩, memory'⟩) (found ++ more) =
            .ok (r.further n, found' ++ more) := hentries.of_ok
      rw [nextTransaction, hread, hnext]
      exact ih r.cursor r.remembered r.remembered found'

end Reader

/-! ## Journals -/

/-- A journal is what is read for the transactions of its block, but for the text of a failure. -/
lemma later_decode (data : Bytes) (txs : List Transaction) :
    Later 0 id (Reader.readBlock (Transaction.spentOutputs txs) (Transaction.spendCounts txs).reverse
      (Reader.start data) []) (decode data txs) := by
  unfold decode
  dsimp only
  split
  next hempty =>
    have hnone := Reader.readBlock_nil (Transaction.spentOutputs txs)
      (Transaction.spendCounts txs).reverse 0 none []
    rw [hempty, Reader.start, Cursor.start, hnone, sum_reverse_spendCounts]
    split
    next => exact .ok _
    next => exact .error rfl rfl
  next =>
    unfold Reader.readBlock
    cases Reader.readTransactions (Transaction.spentOutputs txs) (Transaction.spendCounts txs).reverse
        (Reader.start data) [] with
    | error e => exact .error rfl (Nat.zero_add _).symm
    | ok state =>
      dsimp only
      split
      next => exact .ok _
      next => exact .error rfl (Nat.zero_add _).symm

/-- Behind a journal that is read for the second of two blocks the journal of the first one is read as
on its own, except that a failure counts all bytes before it. -/
lemma later_decode_append (txs : List Transaction) {txs' : List Transaction} {data : Bytes}
    {second : List SpentOutput} (h : decode data txs' = .ok ⟨second⟩) (rest : Bytes) :
    Later data.length (fun journal => ⟨journal.spent ++ second⟩) (decode rest txs)
      (decode (data ++ rest) (txs ++ txs')) := by
  have hsecond := later_decode data txs'
  rw [h] at hsecond
  obtain ⟨memory, hjoined⟩ := Reader.exists_readBlock_append hsecond.symm.of_ok
  have hwhole := later_decode (data ++ rest) (txs ++ txs')
  have hstart : Reader.start (data ++ rest) = ⟨⟨0, data ++ rest⟩, none⟩ := rfl
  rw [spendCounts_append, List.reverse_append, hstart, hjoined, Nat.zero_add] at hwhole
  have hfirst := Reader.later_readBlock data.length (Transaction.spentOutputs txs)
    (Transaction.spentOutputs (txs ++ txs')) (Transaction.spendCounts txs).reverse
    (Cursor.start rest) none memory [] second
  have hchain := ((later_decode rest txs).symm.trans hfirst).trans hwhole
  rw [Nat.add_zero, Nat.zero_add] at hchain
  exact hchain

/-- Behind a journal that is read for the second of two blocks, whatever journal is read for the first
one is read in front of its entries; and whatever is refused for the first one is refused with the same
code, at an offset from the start of the whole. -/
theorem decode_of_joined_blocks (txs : List Transaction) {txs' : List Transaction} {data : Bytes}
    {second : List SpentOutput} (h : decode data txs' = .ok ⟨second⟩) (rest : Bytes) :
    (∀ first, decode rest txs = .ok ⟨first⟩ →
      decode (data ++ rest) (txs ++ txs') = .ok ⟨first ++ second⟩) ∧
    ∀ e, decode rest txs = .error e → ∃ e', decode (data ++ rest) (txs ++ txs') = .error e' ∧
      e'.code = e.code ∧ e'.bytesRead = data.length + e.bytesRead := by
  have hlater := later_decode_append txs h rest
  constructor
  · intro first hfirst
    rw [hfirst] at hlater
    exact hlater.of_ok
  · intro e herror
    rw [herror] at hlater
    exact hlater.of_error

/-- The block of mixed transactions, taken apart behind its third one, with the journal of the first
part whole, cut short, missing, and followed by a byte. -/
theorem decode_of_joined_mixedData :
    decode (mixedData.take 38) (mixedBlock.drop 3) = .ok ⟨mixedJournal.spent.drop 1⟩ ∧
    decode (mixedData.take 38 ++ [0, 0, 6]) (mixedBlock.take 3 ++ mixedBlock.drop 3) =
      .ok ⟨mixedJournal.spent.take 1 ++ mixedJournal.spent.drop 1⟩ ∧
    (∃ e, decode (mixedData.take 38 ++ [0, 0]) (mixedBlock.take 3 ++ mixedBlock.drop 3) = .error e ∧
      e.code = .parseUnderflow ∧ e.bytesRead = 40) ∧
    (∃ e, decode (mixedData.take 38 ++ []) (mixedBlock.take 3 ++ mixedBlock.drop 3) = .error e ∧
      e.code = .internalError ∧ e.bytesRead = 38) ∧
    ∃ e, decode (mixedData.take 38 ++ [0, 0, 6, 1]) (mixedBlock.take 3 ++ mixedBlock.drop 3) =
      .error e ∧ e.code = .internalError ∧ e.bytesRead = 41 := by
  have hsecond : decode (mixedData.take 38) (mixedBlock.drop 3) =
      .ok ⟨mixedJournal.spent.drop 1⟩ := by cbv
  have hwhole : decode [0, 0, 6] (mixedBlock.take 3) = .ok ⟨mixedJournal.spent.take 1⟩ := by cbv
  have hcut : decode [0, 0] (mixedBlock.take 3) = .error ⟨.endsAfterAmount, 2⟩ := by cbv
  have hmissing : decode [] (mixedBlock.take 3) = .error ⟨.journalMissing 1, 0⟩ := by cbv
  have hmore : decode [0, 0, 6, 1] (mixedBlock.take 3) = .error ⟨.journalLeftover 1 1, 3⟩ := by cbv
  have hjoined := decode_of_joined_blocks (mixedBlock.take 3) hsecond
  exact ⟨hsecond, (hjoined _).1 _ hwhole, (hjoined _).2 _ hcut, (hjoined _).2 _ hmissing,
    (hjoined _).2 _ hmore⟩

end SpendJournal

end CoinLedger
